import TronWallet.Analysis.RlpReader
import TronWallet.Analysis.Accounts

/-!
# The contents of the keys file

`KeysFile` is what the keys file says: the accounts with their identifiers, the hints and
the default password.  The text the key manager makes is the encoding of its contents
(`fileText_eq`), and `load` under the right key reads them back: each member of the loop
over the accounts has the effect `noteInfo` (`loadInfo_eq`), and the whole call returns
`true` and leaves `loaded` (`load_of_encode`).

`load_keeps` is the rule for everything a load cannot disturb, whatever the file holds.
-/

set_option autoImplicit false

namespace TronWallet.Analysis

open TronWallet.Lib TronWallet.Model

variable (P : Platform)

/-! ## Contents and their encoding -/

/-- What the keys file says. -/
structure KeysFile where
  infos : List (Address × H128 × KeyInfo)
  hints : List (H256 × Bytes)
  default : Bytes

/-- The fields of one account. -/
def infoFields (i : Address × H128 × KeyInfo) : List Bytes :=
  [encodeData i.1.m_data, encodeData i.2.1.m_data, encodeData i.2.2.passHash.m_data,
    encodeData i.2.2.accountName, encodeData i.2.2.passwordHint]

/-- The fields of one hint. -/
def hintFields (i : H256 × Bytes) : List Bytes := [encodeData i.1.m_data, encodeData i.2]

/-- The items of the keys file. -/
def KeysFile.items (f : KeysFile) : List Bytes :=
  [[1], encodeList (f.infos.map fun i => encodeList (infoFields i)),
    encodeList (f.hints.map fun i => encodeList (hintFields i)), encodeData f.default]

/-- The text of the keys file. -/
def KeysFile.encode (f : KeysFile) : Bytes := encodeList f.items

/-- What a key manager would write, in the order its tables are visited. -/
def contentsOf (o : Order) (m : KeyManager) : KeysFile where
  infos := (o.iterate m.m_keyInfo).map fun i => (i.1, m.uuid i.1, i.2)
  hints := o.iterate m.m_passwordHint
  default := m.m_defaultPasswordDeprecated

/-- Writing an account is putting the list of its fields. -/
theorem appendInfo_eq_put {m : KeyManager} {s s' : RLPStream} {i : Address × KeyInfo}
    (h : m.appendInfo s i = .ok s') :
    put (encodeList (infoFields (i.1, m.uuid i.1, i.2))) s = .ok s' := by
  obtain ⟨s₁, h₁, h⟩ := bind_eq_ok h
  obtain ⟨s₂, h₂, h⟩ := bind_eq_ok h
  obtain ⟨s₃, h₃, h⟩ := bind_eq_ok h
  obtain ⟨s₄, h₄, h⟩ := bind_eq_ok h
  obtain ⟨s₅, h₅, h₆⟩ := bind_eq_ok h
  refine putAll_appendList (infoFields (i.1, m.uuid i.1, i.2)) h₁ ?_
  simp only [infoFields, putAll_cons, append_eq_put h₂, append_eq_put h₃, append_eq_put h₄,
    append_eq_put h₅, append_eq_put h₆, Except.bind, putAll_nil]

/-- Writing a hint is putting the list of its fields. -/
theorem appendHint_eq_put {s s' : RLPStream} {i : H256 × Bytes}
    (h : KeyManager.appendHint s i = .ok s') : put (encodeList (hintFields i)) s = .ok s' := by
  obtain ⟨s₁, h₁, h⟩ := bind_eq_ok h
  obtain ⟨s₂, h₂, h₃⟩ := bind_eq_ok h
  refine putAll_appendList (hintFields i) h₁ ?_
  simp only [hintFields, putAll_cons, append_eq_put h₂, append_eq_put h₃, Except.bind, putAll_nil]

/-- **The text of the keys file is the encoding of its contents.** -/
theorem fileText_eq {o : Order} {m : KeyManager} {text : Bytes} (h : m.fileText o = .ok text) :
    text = (contentsOf o m).encode ∧ text.length ≤ vectorMaxSize := by
  obtain ⟨s₁, h₁, h⟩ := bind_eq_ok h
  obtain ⟨s₂, h₂, h⟩ := bind_eq_ok h
  obtain ⟨s₃, h₃, h⟩ := bind_eq_ok h
  obtain ⟨s₄, h₄, h⟩ := bind_eq_ok h
  obtain ⟨s₅, h₅, h⟩ := bind_eq_ok h
  obtain ⟨s₆, h₆, h⟩ := bind_eq_ok h
  obtain ⟨s₇, h₇, hout⟩ := bind_eq_ok h
  have hinfos := foldlM_eq_putAll (f := m.appendInfo)
    (fun i : Address × KeyInfo => encodeList (infoFields (i.1, m.uuid i.1, i.2)))
    (fun h => appendInfo_eq_put h) h₄
  have hhints := foldlM_eq_putAll (f := KeyManager.appendHint)
    (fun i : H256 × Bytes => encodeList (hintFields i)) (fun h => appendHint_eq_put h) h₆
  have hlist₁ := putAll_appendList _ (by rw [List.length_map]; exact h₃) hinfos
  have hlist₂ := putAll_appendList _ (by rw [List.length_map]; exact h₅) hhints
  refine out_of_put (putAll_appendList (contentsOf o m).items h₁ ?_) hout
  simp only [KeysFile.items, contentsOf, List.map_map, Function.comp_def, putAll_cons,
    appendInt_one_eq_put h₂, hlist₁, hlist₂, append_eq_put h₇, Except.bind, putAll_nil]

/-! ## Sizes -/

/-- The items of the keys file are no longer than the file. -/
theorem KeysFile.length_le_of_mem {f : KeysFile} {e : Bytes} (h : e ∈ f.items) :
    e.length ≤ f.encode.length :=
  length_le_encodeList h

/-! ## When there is a text -/

/-- Writing an account that a vector can hold does not throw. -/
theorem appendInfo_eq {m : KeyManager} {i : Address × KeyInfo}
    (h : (encodeList (infoFields (i.1, m.uuid i.1, i.2))).length ≤ vectorMaxSize)
    (s : RLPStream) :
    m.appendInfo s i = put (encodeList (infoFields (i.1, m.uuid i.1, i.2))) s := by
  have hfield : ∀ b, encodeData b ∈ infoFields (i.1, m.uuid i.1, i.2) → ∀ s : RLPStream,
      s.append b = put (encodeData b) s := fun b hb => append_eq (Nat.le_trans
    (length_le_encodeData b) (Nat.le_trans (length_le_encodeList hb) h))
  rw [← appendList_bind_putAll _ s (Nat.le_trans (flatten_length_le_encodeList _) h)]
  unfold KeyManager.appendInfo
  refine bind_congr fun s₁ => ?_
  rw [hfield _ (by simp [infoFields])]
  refine bind_congr fun s₂ => ?_
  rw [hfield _ (by simp [infoFields])]
  refine bind_congr fun s₃ => ?_
  rw [hfield _ (by simp [infoFields])]
  refine bind_congr fun s₄ => ?_
  rw [hfield _ (by simp [infoFields])]
  refine bind_congr fun s₅ => ?_
  rw [hfield _ (by simp [infoFields])]
  exact (bind_pure _).symm

/-- Writing a hint that a vector can hold does not throw. -/
theorem appendHint_eq {i : H256 × Bytes}
    (h : (encodeList (hintFields i)).length ≤ vectorMaxSize) (s : RLPStream) :
    KeyManager.appendHint s i = put (encodeList (hintFields i)) s := by
  have hfield : ∀ b, encodeData b ∈ hintFields i → ∀ s : RLPStream,
      s.append b = put (encodeData b) s := fun b hb => append_eq (Nat.le_trans
    (length_le_encodeData b) (Nat.le_trans (length_le_encodeList hb) h))
  rw [← appendList_bind_putAll _ s (Nat.le_trans (flatten_length_le_encodeList _) h)]
  unfold KeyManager.appendHint
  refine bind_congr fun s₁ => ?_
  rw [hfield _ (by simp [hintFields])]
  refine bind_congr fun s₂ => ?_
  rw [hfield _ (by simp [hintFields])]
  exact (bind_pure _).symm

/-- Writing a table whose elements do not throw is putting the list of them. -/
theorem appendTable_eq {α β : Type} {f : RLPStream → α → Except Exn RLPStream} (enc : α → Bytes)
    {l : List α} (hf : ∀ x ∈ l, ∀ s, f s x = put (enc x) s)
    (hsize : (encodeList (l.map enc)).length ≤ vectorMaxSize) (s : RLPStream)
    (k : RLPStream → Except Exn β) :
    (s.appendList l.length >>= fun s => l.foldlM f s >>= k) =
      put (encodeList (l.map enc)) s >>= k := by
  rw [← appendList_bind_putAll _ s (Nat.le_trans (flatten_length_le_encodeList _) hsize),
    List.length_map, bind_assoc]
  exact bind_congr fun s' => by rw [foldlM_eq_putAll_map enc hf]

/-- **There is a text whenever a vector can hold it.** -/
theorem fileText_of_size {o : Order} {m : KeyManager}
    (h : (contentsOf o m).encode.length ≤ vectorMaxSize) :
    m.fileText o = .ok (contentsOf o m).encode := by
  have hitem : ∀ e ∈ (contentsOf o m).items, e.length ≤ vectorMaxSize := fun e he =>
    Nat.le_trans (KeysFile.length_le_of_mem he) h
  have hsize₁ : (encodeList ((o.iterate m.m_keyInfo).map fun i =>
      encodeList (infoFields (i.1, m.uuid i.1, i.2)))).length ≤ vectorMaxSize :=
    hitem _ (by simp [KeysFile.items, contentsOf, Function.comp_def])
  have hsize₂ : (encodeList ((o.iterate m.m_passwordHint).map fun i =>
      encodeList (hintFields i))).length ≤ vectorMaxSize :=
    hitem _ (by simp [KeysFile.items, contentsOf])
  have hdefault : ∀ s : RLPStream, s.append m.m_defaultPasswordDeprecated =
      put (encodeData m.m_defaultPasswordDeprecated) s := append_eq (Nat.le_trans
    (length_le_encodeData _) (hitem _ (by simp [KeysFile.items, contentsOf])))
  have hinfo : ∀ i ∈ o.iterate m.m_keyInfo, ∀ s : RLPStream, m.appendInfo s i =
      put (encodeList (infoFields (i.1, m.uuid i.1, i.2))) s := fun i hi => appendInfo_eq
    (Nat.le_trans (length_le_encodeList (List.mem_map.mpr ⟨i, hi, rfl⟩)) hsize₁)
  have hhint : ∀ i ∈ o.iterate m.m_passwordHint, ∀ s : RLPStream,
      KeyManager.appendHint s i = put (encodeList (hintFields i)) s := fun i hi => appendHint_eq
    (Nat.le_trans (length_le_encodeList (List.mem_map.mpr ⟨i, hi, rfl⟩)) hsize₂)
  have hinfos := appendTable_eq (β := Bytes) _ hinfo hsize₁
  have hhints := appendTable_eq (β := Bytes) _ hhint hsize₂
  have htext : m.fileText o =
      (RLPStream.appendList 4 {} >>= putAll (contentsOf o m).items) >>= RLPStream.out := by
    rw [bind_assoc]
    unfold KeyManager.fileText
    refine bind_congr fun s₁ => ?_
    simp only [hinfos, hhints, hdefault]
    simp only [KeysFile.items, contentsOf, List.map_map, Function.comp_def, putAll_cons_bind,
      putAll_nil]
    rfl
  rw [htext, show 4 = (contentsOf o m).items.length from rfl, appendList_bind_putAll _ _
    (Nat.le_trans (flatten_length_le_encodeList _) h),
    show encodeList (contentsOf o m).items = (contentsOf o m).encode from rfl, put_empty]
  have hout : RLPStream.out ⟨(contentsOf o m).encode, []⟩ = .ok (contentsOf o m).encode := by
    unfold RLPStream.out
    rw [if_neg (by simp), if_neg (Nat.not_lt.mpr h)]
  -- The written text is handed to `out` as it is.
  have hhand : ∀ s : RLPStream, (Except.ok s : Except Exn RLPStream) >>= RLPStream.out = s.out :=
    fun _ => rfl
  rw [hhand]
  exact hout

/-! ## Reading the contents back -/

/-- A data item of a size a vector holds is read as its bytes. -/
theorem readsAs_data_of_le {b : Bytes} (h : (encodeData b).length ≤ vectorMaxSize) :
    ReadsAs (encodeData b) b false :=
  readsAs_encodeData (Nat.le_trans (length_le_encodeData b) h)

/-- A list of a size a vector holds is read as its items. -/
theorem readsAs_list_of_le {items : List Bytes} (h : (encodeList items).length ≤ vectorMaxSize) :
    ReadsAs (encodeList items) items.flatten true :=
  readsAs_encodeList (Nat.le_trans (flatten_length_le_encodeList items) h)

/-- A list of encoded byte strings is a node of its items. -/
theorem nodeOf_encodeList {items : List Bytes}
    (hitems : ∀ e ∈ items, (∃ b, e = encodeData b) ∨ ∃ l, e = encodeList l)
    (h : (encodeList items).length ≤ vectorMaxSize) :
    NodeOf items { m_data := encodeList items } := by
  refine (readsAs_list_of_le h).nodeOf fun e he => ?_
  have hle := Nat.le_trans (length_le_encodeList he) h
  rcases hitems e he with ⟨b, rfl⟩ | ⟨l, rfl⟩
  · exact ⟨_, _, readsAs_data_of_le hle⟩
  · exact ⟨_, _, readsAs_list_of_le hle⟩

/-- The fields of an account are items. -/
theorem isItem_infoFields {i : Address × H128 × KeyInfo}
    (h : (encodeList (infoFields i)).length ≤ vectorMaxSize) : ∀ e ∈ infoFields i, IsItem e := by
  intro e he
  have hle := Nat.le_trans (length_le_encodeList he) h
  simp only [infoFields, List.mem_cons, List.not_mem_nil, or_false] at he
  rcases he with rfl | rfl | rfl | rfl | rfl <;> exact ⟨_, _, readsAs_data_of_le hle⟩

/-- The text of the keys file is a node of its items. -/
theorem KeysFile.nodeOf {f : KeysFile} (h : f.encode.length ≤ vectorMaxSize) :
    NodeOf f.items { m_data := f.encode } := by
  have hone : encodeData [1] = [1] := rfl
  refine nodeOf_encodeList (fun e he => ?_) h
  simp only [KeysFile.items, List.mem_cons, List.not_mem_nil, or_false] at he
  rcases he with rfl | rfl | rfl | rfl
  · exact Or.inl ⟨[1], hone.symm⟩
  · exact Or.inr ⟨_, rfl⟩
  · exact Or.inr ⟨_, rfl⟩
  · exact Or.inl ⟨_, rfl⟩

/-- The encoding of a list determines its items. -/
theorem eq_of_encodeList_eq {items items' : List Bytes}
    (h : (encodeList items).length ≤ vectorMaxSize) (hitems : ∀ e ∈ items, IsItem e)
    (hitems' : ∀ e ∈ items', IsItem e) (heq : encodeList items = encodeList items') :
    items = items' := by
  have hpayload := (readsAs_list_of_le h).payload_self
  rw [heq, (readsAs_list_of_le (by rw [← heq]; exact h)).payload_self] at hpayload
  exact items_eq_of_flatten_eq hitems hitems' (Except.ok.inj hpayload).symm

/-- What two keys files with one text list is the same. -/
theorem KeysFile.listed_of_encode_eq {f f' : KeysFile} (h : f.encode.length ≤ vectorMaxSize)
    (heq : f.encode = f'.encode) {i : Address × H128 × KeyInfo} (hi : i ∈ f.infos) :
    ∃ i' ∈ f'.infos, i'.1 = i.1 := by
  have h' : f'.encode.length ≤ vectorMaxSize := by rw [← heq]; exact h
  have hitems : f.items = f'.items :=
    eq_of_encodeList_eq h (KeysFile.nodeOf h).isItem (KeysFile.nodeOf h').isItem heq
  have hlists : encodeList (f.infos.map fun i => encodeList (infoFields i)) =
      encodeList (f'.infos.map fun i => encodeList (infoFields i)) := by
    simp only [KeysFile.items, List.cons.injEq] at hitems
    exact hitems.2.1
  have hsize : (encodeList (f.infos.map fun i => encodeList (infoFields i))).length ≤
      vectorMaxSize := Nat.le_trans (KeysFile.length_le_of_mem (by simp [KeysFile.items])) h
  have hitem : ∀ {g : KeysFile},
      (encodeList (g.infos.map fun i => encodeList (infoFields i))).length ≤ vectorMaxSize →
        ∀ i ∈ g.infos, (encodeList (infoFields i)).length ≤ vectorMaxSize :=
    fun hg i hi => Nat.le_trans (length_le_encodeList (List.mem_map.mpr ⟨i, hi, rfl⟩)) hg
  have hall : ∀ {g : KeysFile},
      (encodeList (g.infos.map fun i => encodeList (infoFields i))).length ≤ vectorMaxSize →
        ∀ e ∈ g.infos.map fun i => encodeList (infoFields i), IsItem e := by
    intro g hg e he
    obtain ⟨i, hi, rfl⟩ := List.mem_map.mp he
    exact ⟨_, _, readsAs_list_of_le (hitem hg i hi)⟩
  have hmap := eq_of_encodeList_eq hsize (hall hsize) (hall (by rw [← hlists]; exact hsize)) hlists
  have hmem : encodeList (infoFields i) ∈ f'.infos.map fun i => encodeList (infoFields i) := by
    rw [← hmap]
    exact List.mem_map.mpr ⟨i, hi, rfl⟩
  obtain ⟨i', hi', hsame⟩ := List.mem_map.mp hmem
  refine ⟨i', hi', ?_⟩
  have hle := hitem hsize i hi
  have hfields := eq_of_encodeList_eq (by rw [hsame]; exact hle)
    (isItem_infoFields (by rw [hsame]; exact hle)) (isItem_infoFields hle) hsame
  -- The first field is the address.
  have haddr : encodeData i'.1.m_data = encodeData i.1.m_data := by
    simp only [infoFields, List.cons.injEq] at hfields
    exact hfields.1
  have hreads : (encodeData i.1.m_data).length ≤ vectorMaxSize :=
    Nat.le_trans (length_le_encodeList (by simp [infoFields])) hle
  have hdata := (readsAs_data_of_le hreads).payload_self
  rw [← haddr, (readsAs_data_of_le (by rw [haddr]; exact hreads)).payload_self] at hdata
  exact FixedHash.ext (Except.ok.inj hdata)

/-- The effect of one account of the keys file. -/
def noteInfo (x : Opened × Bool) (i : Address × H128 × KeyInfo) : Opened × Bool :=
  if i.2.1 ≠ 0 ∧ x.1.m.m_store.contains i.2.1 = false then x
  else
    let m := if i.2.1 ≠ 0 then x.1.m.noteLookup i.2.1 i.1 else x.1.m
    let m := { m with m_keyInfo := m.m_keyInfo.insert i.1 i.2.2 }
    if i.2.1 ≠ 0 then
      ({ x.1 with m := { m with m_store := (m.m_store.noteAddress i.2.1 i.1).2 } },
        x.2 || (m.m_store.noteAddress i.2.1 i.1).1)
    else ({ x.1 with m := m }, x.2)

/-- The body of the loop over the accounts, on the encoding of an account. -/
theorem loadInfo_eq {i : Address × H128 × KeyInfo}
    (h : (encodeList (infoFields i)).length ≤ vectorMaxSize) (x : Opened × Bool) :
    KeyManager.loadInfo (encodeList (infoFields i)) x = .ok () (noteInfo x i) := by
  have hnode : NodeOf (infoFields i) { m_data := encodeList (infoFields i) } :=
    (readsAs_list_of_le h).nodeOf (isItem_infoFields h)
  have hreads : ∀ b, encodeData b ∈ infoFields i → ReadsAs (encodeData b) b false := fun b hb =>
    readsAs_data_of_le (Nat.le_trans (length_le_encodeList hb) h)
  obtain ⟨r₁, h₁, hnode₁⟩ := hnode.item_eq (i := 1) rfl
  obtain ⟨r₀, h₀, hnode₀⟩ := hnode₁.item_eq (i := 0) rfl
  obtain ⟨r₂, h₂, hnode₂⟩ := hnode₀.item_eq (i := 2) rfl
  obtain ⟨r₃, h₃, hnode₃⟩ := hnode₂.item_eq (i := 3) rfl
  obtain ⟨r₄, h₄, -⟩ := hnode₃.item_eq (i := 4) rfl
  have hcount : RLP.itemCount (encodeList (infoFields i)) = .ok 5 :=
    itemCount_eq (readsAs_list_of_le h) hnode.isItem
  have huuid : RLP.toHash 16 (encodeData i.2.1.m_data) = .ok i.2.1 :=
    (hreads _ (by simp [infoFields])).toHash
  have haddr : RLP.toHash 20 (encodeData i.1.m_data) = .ok i.1 :=
    (hreads _ (by simp [infoFields])).toHash
  have hpass : RLP.toHash 32 (encodeData i.2.2.passHash.m_data) = .ok i.2.2.passHash :=
    (hreads _ (by simp [infoFields])).toHash
  have hname : RLP.toString (encodeData i.2.2.accountName) = .ok i.2.2.accountName :=
    (hreads _ (by simp [infoFields])).toString
  have hhint : RLP.toString (encodeData i.2.2.passwordHint) = .ok i.2.2.passwordHint :=
    (hreads _ (by simp [infoFields])).toString
  obtain ⟨w, saveRequired⟩ := x
  simp only [KeyManager.loadInfo, Exec.bind_apply, h₁, huuid, h₀, haddr, Exec.ofExcept_ok,
    Exec.get_apply]
  by_cases hmissing : i.2.1 ≠ 0 ∧ w.m.m_store.contains i.2.1 = false
  · rw [if_pos hmissing]
    unfold noteInfo
    rw [if_pos hmissing]
    rfl
  · rw [if_neg hmissing]
    unfold noteInfo
    rw [if_neg hmissing]
    simp only [Exec.bind_apply, Exec.set_apply, h₂, hpass, h₃, hname, hcount, h₄, hhint,
      Exec.ofExcept_ok, show 4 < 5 by decide, if_true]
    by_cases hzero : i.2.1 = 0
    · simp [hzero]
    · simp [hzero]

/-- The effect of one hint of the keys file. -/
def noteLoadedHint (w : Opened) (i : H256 × Bytes) : Opened :=
  { w with m := { w.m with m_passwordHint := w.m.m_passwordHint.insert i.1 i.2 } }

/-- The body of the loop over the hints, on the encoding of a hint. -/
theorem loadHint_eq {i : H256 × Bytes} (h : (encodeList (hintFields i)).length ≤ vectorMaxSize)
    (w : Opened) :
    KeyManager.loadHint (encodeList (hintFields i)) w = .ok () (noteLoadedHint w i) := by
  have hnode : NodeOf (hintFields i) { m_data := encodeList (hintFields i) } :=
    nodeOf_encodeList (fun e he => Or.inl (by
      simp only [hintFields, List.mem_cons, List.not_mem_nil, or_false] at he
      rcases he with rfl | rfl <;> exact ⟨_, rfl⟩)) h
  have hreads : ∀ b, encodeData b ∈ hintFields i → ReadsAs (encodeData b) b false := fun b hb =>
    readsAs_data_of_le (Nat.le_trans (length_le_encodeList hb) h)
  obtain ⟨r₀, h₀, hnode₀⟩ := hnode.item_eq (i := 0) rfl
  obtain ⟨r₁, h₁, -⟩ := hnode₀.item_eq (i := 1) rfl
  have hpass : RLP.toHash 32 (encodeData i.1.m_data) = .ok i.1 :=
    (hreads _ (by simp [hintFields])).toHash
  have hhint : RLP.toString (encodeData i.2) = .ok i.2 :=
    (hreads _ (by simp [hintFields])).toString
  simp only [KeyManager.loadHint, Exec.bind_apply, h₀, hpass, h₁, hhint, Exec.ofExcept_ok,
    Exec.modify_apply]
  rfl

/-- A loop whose body returns on every element folds its effect. -/
theorem forM_eq_foldl {σ α : Type} {body : Bytes → Exec σ Unit} {effect : σ → α → σ}
    {enc : α → Bytes} {l : List α} (h : ∀ x ∈ l, ∀ s, body (enc x) s = .ok () (effect s x))
    (s : σ) : (l.map enc).forM body s = .ok () (l.foldl effect s) := by
  induction l generalizing s with
  | nil => rfl
  | cons x l ih =>
      rw [List.map_cons, show (enc x :: l.map enc).forM body =
        (body (enc x) >>= fun _ => (l.map enc).forM body) from rfl, Exec.bind_apply,
        h x List.mem_cons_self]
      exact ih (fun y hy => h y (List.mem_cons_of_mem _ hy)) _

/-- The effect of the accounts of the keys file, with the saving it may call for. -/
def noteInfos (w : Opened) (infos : List (Address × H128 × KeyInfo)) : Opened :=
  let x := infos.foldl noteInfo (w, false)
  if x.2 then { x.1 with host := x.1.m.m_store.save x.1.host } else x.1

/-- The accounts that are listed are noted one by one. -/
theorem loadInfos_eq (infos : List (Address × H128 × KeyInfo))
    (h : (encodeList (infos.map fun i => encodeList (infoFields i))).length ≤ vectorMaxSize)
    (w : Opened) :
    KeyManager.loadInfos (encodeList (infos.map fun i => encodeList (infoFields i))) w =
      .ok () (noteInfos w infos) := by
  have hitem : ∀ i ∈ infos, (encodeList (infoFields i)).length ≤ vectorMaxSize := fun i hi =>
    Nat.le_trans (length_le_encodeList (List.mem_map.mpr ⟨i, hi, rfl⟩)) h
  have hforEach := forEach_eq KeyManager.loadInfo (readsAs_list_of_le h) (fun e he => by
    obtain ⟨i, hi, rfl⟩ := List.mem_map.mp he
    exact ⟨_, _, readsAs_list_of_le (hitem i hi)⟩)
  have hloop := forM_eq_foldl (fun i hi s => loadInfo_eq (hitem i hi) s) (w, false)
  simp only [KeyManager.loadInfos, Exec.bind_apply, Exec.withLocal, hforEach, hloop]
  unfold noteInfos
  by_cases hsave : (infos.foldl noteInfo (w, false)).2 = true
  · simp only [hsave, if_true, Exec.modify_apply]
  · simp only [hsave]
    rfl

/-- What is cached and set once the contents have been read. -/
def afterContents (key : H128) (pass : Bytes) (w : Opened) : Opened :=
  let m := w.m.cachePassword P w.m.m_defaultPasswordDeprecated
  let m := m.cachePassword P key.m_data
  let m := { m with m_master := m.hashPassword P pass }
  { w with m := m.cachePassword P pass }

/-- The effect of reading the contents `f` under a key. -/
def loaded (f : KeysFile) (key : H128) (pass : Bytes) (w : Opened) : Opened :=
  let w := { w with m := { w.m with m_keysFileKey := key } }
  let w := noteInfos w f.infos
  let w := f.hints.foldl noteLoadedHint w
  afterContents P key pass { w with m := { w.m with m_defaultPasswordDeprecated := f.default } }

/-- **Loading what was written under the key of the password reads the contents back.** -/
theorem load_of_encode {f : KeysFile} (hsize : f.encode.length ≤ vectorMaxSize) {pass : Bytes}
    {w : Opened} (hkeys : w.host.keys =
      P.encryptSymNoAuth (KeyManager.fileKey P pass w.host.salt) 0 f.encode) :
    KeyManager.load P pass w =
      .ok true (loaded P f (KeyManager.fileKey P pass w.host.salt) pass w) := by
  have hne : w.host.keys ≠ [] := by
    rw [hkeys, Ne, Platform.encryptSymNoAuth_eq_nil]
    exact (readsAs_list_of_le hsize).ne_nil
  have hle : ∀ e ∈ f.items, e.length ≤ vectorMaxSize := fun e he =>
    Nat.le_trans (length_le_encodeList he) hsize
  have hnode : NodeOf f.items { m_data := f.encode } := KeysFile.nodeOf hsize
  obtain ⟨r₀, h₀, hnode₀⟩ := hnode.item_eq (i := 0) rfl
  obtain ⟨r₁, h₁, hnode₁⟩ := hnode₀.item_eq (i := 1) rfl
  obtain ⟨r₂, h₂, hnode₂⟩ := hnode₁.item_eq (i := 2) rfl
  obtain ⟨r₃, h₃, -⟩ := hnode₂.item_eq (i := 3) rfl
  have hinfos := loadInfos_eq f.infos (hle _ (by simp [KeysFile.items]))
  have hhintsSize : (encodeList (f.hints.map fun i => encodeList (hintFields i))).length ≤
    vectorMaxSize := hle _ (by simp [KeysFile.items])
  have hhint : ∀ i ∈ f.hints, (encodeList (hintFields i)).length ≤ vectorMaxSize := fun i hi =>
    Nat.le_trans (length_le_encodeList (List.mem_map.mpr ⟨i, hi, rfl⟩)) hhintsSize
  have hhints := forEach_eq KeyManager.loadHint (readsAs_list_of_le hhintsSize) (fun e he => by
    obtain ⟨i, hi, rfl⟩ := List.mem_map.mp he
    exact ⟨_, _, readsAs_list_of_le (hhint i hi)⟩)
  have hhintsLoop := forM_eq_foldl (fun i hi s => loadHint_eq (hhint i hi) s)
  have hdefault : RLP.toString (encodeData f.default) = .ok f.default :=
    (readsAs_data_of_le (hle _ (by simp [KeysFile.items]))).toString
  have hofBytes : RLP.ofBytes f.encode = .ok { m_data := f.encode } :=
    (readsAs_list_of_le hsize).ofBytes
  have hdec : P.decryptSymNoAuth (KeyManager.fileKey P pass w.host.salt) 0 w.host.keys =
      f.encode := by
    rw [hkeys, Platform.decryptSymNoAuth_encryptSymNoAuth]
  unfold KeyManager.load Exec.catching
  simp only [KeyManager.loadBody, KeyManager.loadText, KeyManager.loadTables,
    KeyManager.cacheLoaded, Exec.bind_apply, Exec.get_apply, hne, if_false,
    Exec.modify_apply, hdec, hofBytes, h₀, toInt_one, if_true, h₁, hinfos, h₂, hhints, hhintsLoop,
    h₃, hdefault, Exec.ofExcept_ok, Exec.pure_apply]
  rfl

/-! ## What loading cannot disturb -/

/-- Two key managers with the same passwords and the same key of the keys file. -/
structure SamePasswords (m m' : KeyManager) : Prop where
  cachedPasswords : m'.m_cachedPasswords = m.m_cachedPasswords
  default : m'.m_defaultPasswordDeprecated = m.m_defaultPasswordDeprecated
  master : m'.m_master = m.m_master
  keysFileKey : m'.m_keysFileKey = m.m_keysFileKey

/-- A property of the key manager and the files that does not depend on the tables read
from the keys file, and survives the noting of addresses in the store and its saving. -/
structure TableProof (I : Opened → Prop) : Prop where
  tables : ∀ (w : Opened) (m : KeyManager), m.m_store = w.m.m_store → SamePasswords w.m m →
    I w → I { w with m := m }
  noteAddress : ∀ (w : Opened) (uuid : H128) (a : Address), I w →
    I { w with m := { w.m with m_store := (w.m.m_store.noteAddress uuid a).2 } }
  save : ∀ w : Opened, I w → I { w with host := w.m.m_store.save w.host }

/-- Such a property that does not depend on the passwords either. -/
structure TextProof (I : Opened → Prop) : Prop extends TableProof I where
  passwords : ∀ (w : Opened) (m : KeyManager), m.m_store = w.m.m_store →
    m.m_keysFileKey = w.m.m_keysFileKey → I w → I { w with m := m }

/-- The key manager with another key of the keys file. -/
def withFileKey (key : H128) (w : Opened) : Opened :=
  { w with m := { w.m with m_keysFileKey := key } }

/-- Such a property that does not depend on the key of the keys file either. -/
structure LoadProof (I : Opened → Prop) : Prop extends TextProof I where
  fileKey : ∀ (w : Opened) (key : H128), I w → I (withFileKey key w)

/-- The range-based loop keeps what its body keeps. -/
theorem forEach_keeps {σ : Type} {J : σ → Prop} {body : Bytes → Exec σ Unit}
    (hbody : ∀ d, Exec.Keeps J (body d)) (d : Bytes) : Exec.Keeps J (RLP.forEach d body) := by
  have hloop : ∀ rounds rest, Exec.Keeps J (RLP.forEachLoop body rounds rest) := by
    intro rounds
    induction rounds with
    | zero => exact fun rest => .of_pure _
    | succ rounds ih =>
        intro rest
        unfold RLP.forEachLoop
        split
        · exact .of_pure _
        · exact .ofExcept_bind fun n => .ofExcept_bind fun _ => .bind (hbody _) fun _ => ih _
  unfold RLP.forEach
  split
  · exact .ofExcept_bind fun p => hloop _ _
  · exact .of_pure _

section TableProof

variable {I : Opened → Prop} (hI : TableProof I)

include hI

/-- Reading an account keeps what noting one keeps. -/
theorem loadInfo_keeps (d : Bytes) : Exec.Keeps (fun x => I x.1) (KeyManager.loadInfo d) := by
  unfold KeyManager.loadInfo
  refine .ofExcept_bind fun ⟨d1, i⟩ => .ofExcept_bind fun uuid => .ofExcept_bind fun ⟨d0, i⟩ =>
    .ofExcept_bind fun addr => .get_bind fun ⟨w, saveRequired⟩ hw => ?_
  dsimp only
  split
  · exact hw
  · have hnoted : I (if uuid ≠ 0 then { w with m := w.m.noteLookup uuid addr } else w) := by
      split
      · exact hI.tables w _ rfl ⟨rfl, rfl, rfl, rfl⟩ hw
      · exact hw
    generalize (if uuid ≠ 0 then { w with m := w.m.noteLookup uuid addr } else w) = w' at hnoted ⊢
    rw [Exec.finalState_set_bind]
    -- what remains keeps the invariant from any state
    suffices hrest : Exec.Keeps (fun x : Opened × Bool => I x.1) _ from
      hrest (w', saveRequired) hnoted
    refine .ofExcept_bind fun ⟨d2, i⟩ => .ofExcept_bind fun passHash =>
      .ofExcept_bind fun ⟨d3, i⟩ => .ofExcept_bind fun name => .ofExcept_bind fun n => ?_
    refine .bind ?_ fun hint => ?_
    · split
      · exact .ofExcept_bind fun ⟨d4, i⟩ => .of_ofExcept _
      · exact .of_pure _
    · have hinfo : I { w' with m := { w'.m with
          m_keyInfo := w'.m.m_keyInfo.insert addr ⟨passHash, name, hint⟩ } } :=
        hI.tables w' _ rfl ⟨rfl, rfl, rfl, rfl⟩ hnoted
      intro s hs
      split
      · exact hI.noteAddress _ uuid addr hinfo
      · exact hinfo

/-- Reading a hint keeps what noting one keeps. -/
theorem loadHint_keeps (d : Bytes) : Exec.Keeps I (KeyManager.loadHint d) := by
  unfold KeyManager.loadHint
  exact .ofExcept_bind fun ⟨d0, i⟩ => .ofExcept_bind fun passHash => .ofExcept_bind fun ⟨d1, i⟩ =>
    .ofExcept_bind fun hint => .of_modify fun w hw => hI.tables w _ rfl ⟨rfl, rfl, rfl, rfl⟩ hw

/-- Reading the accounts keeps what noting them keeps. -/
theorem loadInfos_keeps (d : Bytes) : Exec.Keeps I (KeyManager.loadInfos d) := by
  unfold KeyManager.loadInfos
  refine .bind (.withLocal (forEach_keeps (loadInfo_keeps hI) d)) fun saveRequired => ?_
  split
  · exact .of_modify fun w hw => hI.save w hw
  · exact .of_pure _

/-- Reading the tables keeps what noting their entries keeps. -/
theorem loadTables_keeps (s : RLP) : Exec.Keeps I (KeyManager.loadTables s) := by
  unfold KeyManager.loadTables
  exact .ofExcept_bind fun ⟨d1, s⟩ => .bind (loadInfos_keeps hI d1) fun _ =>
    .ofExcept_bind fun ⟨d2, s⟩ => .bind (forEach_keeps (loadHint_keeps hI) d2) fun _ =>
    .ofExcept_bind fun ⟨d3, s⟩ => .of_ofExcept _

end TableProof

section TextProof

variable {I : Opened → Prop} (hI : TextProof I)

include hI

/-- Caching the password keeps the invariant. -/
theorem cacheLoaded_keeps (key : H128) (pass : Bytes) :
    Exec.Keeps I (KeyManager.cacheLoaded P key pass) := by
  unfold KeyManager.cacheLoaded
  exact .modify_bind (fun w hw => hI.passwords w _ rfl rfl hw) fun _ =>
    .modify_bind (fun w hw => hI.passwords w _ rfl rfl hw) fun _ =>
    .modify_bind (fun w hw => hI.passwords w _ rfl rfl hw) fun _ =>
    .of_modify fun w hw => hI.passwords w _ rfl rfl hw

/-- Reading the text keeps what noting its entries keeps. -/
theorem loadText_keeps (key : H128) (pass bs : Bytes) :
    Exec.Keeps I (KeyManager.loadText P key pass bs) := by
  unfold KeyManager.loadText
  refine .ofExcept_bind fun s => .ofExcept_bind fun ⟨d0, s⟩ => .ofExcept_bind fun version => ?_
  dsimp only
  split
  · exact .bind (loadTables_keeps hI.toTableProof s) fun default =>
      .modify_bind (fun w hw => hI.passwords w _ rfl rfl hw) fun _ =>
      .bind (cacheLoaded_keeps P hI _ pass) fun _ => .of_pure _
  · exact .bind (cacheLoaded_keeps P hI _ pass) fun _ => .of_pure _

end TextProof

/-- **The rule for loading**: whatever the keys file holds, loading it keeps such a
property. -/
theorem load_keeps {I : Opened → Prop} (hI : LoadProof I) (pass : Bytes) :
    Exec.Keeps I (KeyManager.load P pass) := by
  refine .catching (.get_bind fun w hw => ?_) false
  by_cases hkeys : w.host.keys = []
  · simp only [if_pos hkeys]
    exact hw
  · simp only [if_neg hkeys]
    exact loadText_keeps P hI.toTextProof _ pass _ _ (hI.fileKey w _ hw)

/-! ## Texts that are not of version 1 -/

/-- The version number of a text, where it has one. -/
def versionOf (bs : Bytes) : Except Exn ℕ := do
  let s ← RLP.ofBytes bs
  let (d0, _) ← s.item 0
  RLP.toInt 4 d0

/-- What a key manager writes is of version 1. -/
theorem KeysFile.versionOf_encode {f : KeysFile} (h : f.encode.length ≤ vectorMaxSize) :
    versionOf f.encode = .ok 1 := by
  obtain ⟨r₀, h₀, -⟩ := (KeysFile.nodeOf h).item_eq (i := 0) rfl
  have hofBytes : RLP.ofBytes f.encode = .ok { m_data := f.encode } :=
    (readsAs_list_of_le h).ofBytes
  simp only [versionOf, hofBytes, h₀, bind, Except.bind]
  exact toInt_one

/-- A text of another version, or of none, changes no table but the passwords. -/
theorem loadText_of_version_ne {key : H128} {pass bs : Bytes} (h : versionOf bs ≠ .ok 1)
    (w : Opened) : Exec.finalState (KeyManager.loadText P key pass bs) w = w ∨
      Exec.finalState (KeyManager.loadText P key pass bs) w = afterContents P key pass w := by
  unfold KeyManager.loadText
  simp only [versionOf, bind, Except.bind] at h
  rw [Exec.finalState_ofExcept_bind]
  cases hs : RLP.ofBytes bs with
  | error e => exact Or.inl rfl
  | ok s =>
      simp only [hs] at h ⊢
      rw [Exec.finalState_ofExcept_bind]
      cases h₀ : s.item 0 with
      | error e => exact Or.inl rfl
      | ok x =>
          obtain ⟨d0, s'⟩ := x
          simp only [h₀] at h ⊢
          rw [Exec.finalState_ofExcept_bind]
          cases hversion : RLP.toInt 4 d0 with
          | error e => exact Or.inl rfl
          | ok version =>
              rw [hversion] at h
              have hne : version ≠ 1 := fun heq => h (by rw [heq])
              simp only [if_neg hne]
              exact Or.inr rfl

/-- Loading leaves the state as it is when there is no keys file, and else what reading its
text leaves. -/
theorem finalState_load (pass : Bytes) (w : Opened) :
    Exec.finalState (KeyManager.load P pass) w =
      if w.host.keys = [] then w
      else Exec.finalState (KeyManager.loadText P (KeyManager.fileKey P pass w.host.salt) pass
          (P.decryptSymNoAuth (KeyManager.fileKey P pass w.host.salt) 0 w.host.keys))
        (withFileKey (KeyManager.fileKey P pass w.host.salt) w) := by
  have hcatch : ∀ (f : Exec Opened Bool), Exec.finalState (Exec.catching f false) w =
      Exec.finalState f w := by
    intro f
    unfold Exec.finalState Exec.catching
    cases f w <;> rfl
  rw [KeyManager.load, hcatch, KeyManager.loadBody, Exec.finalState_get_bind]
  by_cases hkeys : w.host.keys = []
  · simp only [if_pos hkeys]
    rfl
  · simp only [if_neg hkeys]
    rfl

/-- The key of the keys file after loading: that of the password, if there is a file. -/
theorem load_keysFileKey (pass : Bytes) (w : Opened) :
    (Exec.finalState (KeyManager.load P pass) w).m.m_keysFileKey =
      if w.host.keys = [] then w.m.m_keysFileKey
      else KeyManager.fileKey P pass w.host.salt := by
  rw [finalState_load]
  split
  · rfl
  · have hI : TextProof fun s : Opened =>
        s.m.m_keysFileKey = KeyManager.fileKey P pass w.host.salt :=
      ⟨⟨fun _ _ _ hm hw => hm.keysFileKey.trans hw, fun _ _ _ hw => hw, fun _ hw => hw⟩,
        fun _ _ _ hm hw => hm.trans hw⟩
    exact loadText_keeps P hI _ pass _ _ rfl

/-- What loading leaves as it was, whatever the keys file holds. -/
structure LoadFrame (w w' : Opened) : Prop where
  salt : w'.host.salt = w.host.salt
  keys : w'.host.keys = w.host.keys
  coldWallet : w'.host.coldWallet = w.host.coldWallet
  ctrCalls : w'.host.ctrCalls = w.host.ctrCalls
  cached : w'.m.m_store.m_cached = w.m.m_store.m_cached

/-- A load leaves the salt, the keys file, the cold files and what the store has cached. -/
theorem load_frame (pass : Bytes) (w : Opened) :
    LoadFrame w (Exec.finalState (KeyManager.load P pass) w) := by
  have hI : LoadProof (LoadFrame w) :=
    ⟨⟨⟨fun _ _ hm _ hw => ⟨hw.1, hw.2, hw.3, hw.4, by rw [hm]; exact hw.5⟩,
      fun _ _ _ hw => ⟨hw.1, hw.2, hw.3, hw.4, by rw [noteAddress_m_cached]; exact hw.5⟩,
      fun _ hw => ⟨hw.1, hw.2, hw.3, hw.4, hw.5⟩⟩,
      fun _ _ hm _ hw => ⟨hw.1, hw.2, hw.3, hw.4, by rw [hm]; exact hw.5⟩⟩,
      fun _ _ hw => ⟨hw.1, hw.2, hw.3, hw.4, hw.5⟩⟩
  exact load_keeps P hI pass w ⟨rfl, rfl, rfl, rfl, rfl⟩

/-! ## The tables after the contents have been read -/

/-- Noting an account changes the identifier of its address at most. -/
theorem noteInfo_addrLookup (x : Opened × Bool) (i : Address × H128 × KeyInfo) (a : Address) :
    (noteInfo x i).1.m.m_addrLookup.lookup a = x.1.m.m_addrLookup.lookup a ∨
      (a = i.1 ∧ i.2.1 ≠ 0 ∧ (noteInfo x i).1.m.m_addrLookup.lookup a = some i.2.1) := by
  unfold noteInfo
  split
  · exact Or.inl rfl
  · by_cases hzero : i.2.1 = 0
    · simp [hzero]
    · simp only [ne_eq, hzero, not_false_eq_true, if_true, KeyManager.noteLookup,
        UnorderedMap.lookup_insert_eq]
      by_cases ha : a = i.1 <;> simp [ha]

/-- An address that has an identifier has one after the accounts have been noted. -/
theorem noteInfos_addrLookup_isSome {infos : List (Address × H128 × KeyInfo)} {x : Opened × Bool}
    {a : Address} (h : (x.1.m.m_addrLookup.lookup a).isSome) :
    ((infos.foldl noteInfo x).1.m.m_addrLookup.lookup a).isSome := by
  induction infos generalizing x with
  | nil => exact h
  | cons i infos ih =>
      rw [List.foldl_cons]
      refine ih ?_
      rcases noteInfo_addrLookup x i a with heq | ⟨-, -, heq⟩
      · rw [heq]
        exact h
      · rw [heq]
        rfl

/-- Noting an account changes the information of its address at most. -/
theorem noteInfo_keyInfo (x : Opened × Bool) (i : Address × H128 × KeyInfo) (a : Address) :
    (noteInfo x i).1.m.m_keyInfo.lookup a = x.1.m.m_keyInfo.lookup a ∨
      (a = i.1 ∧ (noteInfo x i).1.m.m_keyInfo.lookup a = some i.2.2) := by
  unfold noteInfo
  split
  · exact Or.inl rfl
  · by_cases hzero : i.2.1 = 0
    · simp only [hzero, ne_eq, not_true_eq_false, if_false, UnorderedMap.lookup_insert_eq]
      by_cases ha : a = i.1 <;> simp [ha]
    · simp only [ne_eq, hzero, not_false_eq_true, if_true, KeyManager.noteLookup,
        UnorderedMap.lookup_insert_eq]
      by_cases ha : a = i.1 <;> simp [ha]

/-- Noting an account whose key is in the store gives its address the information. -/
theorem noteInfo_keyInfo_self {x : Opened × Bool} {i : Address × H128 × KeyInfo}
    (h : i.2.1 = 0 ∨ x.1.m.m_store.contains i.2.1 = true) :
    (noteInfo x i).1.m.m_keyInfo.lookup i.1 = some i.2.2 := by
  unfold noteInfo
  rw [if_neg (by rintro ⟨hzero, hfalse⟩; simp [hzero, hfalse] at h)]
  by_cases hzero : i.2.1 = 0
  · simp [hzero]
  · simp [hzero, KeyManager.noteLookup]

/-- After the accounts have been noted, an address has the information it had, or what the
file says. -/
theorem noteInfos_keyInfo {infos : List (Address × H128 × KeyInfo)} {x : Opened × Bool}
    {a : Address} {info : KeyInfo}
    (h : (infos.foldl noteInfo x).1.m.m_keyInfo.lookup a = some info) :
    x.1.m.m_keyInfo.lookup a = some info ∨ ∃ u, (a, u, info) ∈ infos := by
  induction infos generalizing x with
  | nil => exact Or.inl h
  | cons i infos ih =>
      rw [List.foldl_cons] at h
      rcases ih h with h | ⟨u, hmem⟩
      · rcases noteInfo_keyInfo x i a with heq | ⟨rfl, heq⟩
        · exact Or.inl (heq ▸ h)
        · rw [heq] at h
          cases h
          exact Or.inr ⟨i.2.1, List.mem_cons_self⟩
      · exact Or.inr ⟨u, List.mem_cons_of_mem _ hmem⟩

/-- An address that has information has some after the accounts have been noted. -/
theorem noteInfos_keyInfo_isSome {infos : List (Address × H128 × KeyInfo)} {x : Opened × Bool}
    {a : Address} (h : (x.1.m.m_keyInfo.lookup a).isSome) :
    ((infos.foldl noteInfo x).1.m.m_keyInfo.lookup a).isSome := by
  induction infos generalizing x with
  | nil => exact h
  | cons i infos ih =>
      rw [List.foldl_cons]
      refine ih ?_
      rcases noteInfo_keyInfo x i a with heq | ⟨-, heq⟩
      · rw [heq]
        exact h
      · rw [heq]
        rfl

/-- The hints change no other table. -/
theorem foldl_noteLoadedHint (hints : List (H256 × Bytes)) (w : Opened) :
    ∃ table, hints.foldl noteLoadedHint w =
      { w with m := { w.m with m_passwordHint := table } } := by
  induction hints generalizing w with
  | nil => exact ⟨_, rfl⟩
  | cons i hints ih => exact ih (noteLoadedHint w i)

/-- The tables after loading are those after the accounts have been noted. -/
theorem loaded_tables (f : KeysFile) (key : H128) (pass : Bytes) (w : Opened) :
    (loaded P f key pass w).m.m_addrLookup =
        (f.infos.foldl noteInfo (withFileKey key w, false)).1.m.m_addrLookup ∧
      (loaded P f key pass w).m.m_keyInfo =
        (f.infos.foldl noteInfo (withFileKey key w, false)).1.m.m_keyInfo := by
  obtain ⟨table, htable⟩ := foldl_noteLoadedHint f.hints (noteInfos (withFileKey key w) f.infos)
  unfold loaded
  rw [show ({ w with m := { w.m with m_keysFileKey := key } } : Opened) = withFileKey key w
    from rfl]
  dsimp only
  rw [htable]
  unfold noteInfos
  dsimp only
  split <;> exact ⟨rfl, rfl⟩

/-- Two key managers with the same accounts; hints, passwords and the key of the keys file
may differ. -/
structure SameAccounts (m m' : KeyManager) : Prop where
  store : m'.m_store = m.m_store
  addrLookup : m'.m_addrLookup = m.m_addrLookup
  uuidLookup : m'.m_uuidLookup = m.m_uuidLookup
  keyInfo : m'.m_keyInfo = m.m_keyInfo

/-- **What noting each account listed keeps, reading the contents keeps**, if it is about the
accounts only and survives the saving of the store. -/
theorem loaded_keeps {I : Opened → Prop} {f : KeysFile} {key : H128} {pass : Bytes} {w : Opened}
    (hinfo : ∀ x : Opened × Bool, ∀ i ∈ f.infos, I x.1 → I (noteInfo x i).1)
    (hsave : ∀ s : Opened, I s → I { s with host := s.m.m_store.save s.host })
    (hsame : ∀ (s : Opened) (m : KeyManager), SameAccounts s.m m → I s → I { s with m := m })
    (hw : I w) : I (loaded P f key pass w) := by
  have hfold : ∀ (l : List (Address × H128 × KeyInfo)) (x : Opened × Bool),
      (∀ i ∈ l, i ∈ f.infos) → I x.1 → I (l.foldl noteInfo x).1 := by
    intro l
    induction l with
    | nil => exact fun x _ hx => hx
    | cons i l ih =>
        exact fun x hl hx => ih _ (fun j hj => hl j (List.mem_cons_of_mem _ hj))
          (hinfo x i (hl i List.mem_cons_self) hx)
  have hinfos : I (noteInfos (withFileKey key w) f.infos) := by
    have hx := hfold f.infos (withFileKey key w, false) (fun _ hi => hi)
      (hsame w _ ⟨rfl, rfl, rfl, rfl⟩ hw)
    unfold noteInfos
    dsimp only
    split
    · exact hsave _ hx
    · exact hx
  obtain ⟨table, htable⟩ := foldl_noteLoadedHint f.hints (noteInfos (withFileKey key w) f.infos)
  have hloaded : ∃ m,
      loaded P f key pass w = { noteInfos (withFileKey key w) f.infos with m := m } ∧
        SameAccounts (noteInfos (withFileKey key w) f.infos).m m := by
    unfold loaded
    rw [show ({ w with m := { w.m with m_keysFileKey := key } } : Opened) = withFileKey key w
      from rfl]
    dsimp only
    rw [htable]
    exact ⟨_, rfl, rfl, rfl, rfl, rfl⟩
  obtain ⟨m, hm, haccounts⟩ := hloaded
  rw [hm]
  exact hsame _ m haccounts hinfos

end TronWallet.Analysis
