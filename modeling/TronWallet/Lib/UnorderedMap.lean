import Mathlib.Data.List.AList

/-!
# Unordered maps and their iteration order

A hash map is Mathlib's association list with distinct keys.  What a C++ program may rely
on is the lookup alone: the order in which a loop visits the entries is unspecified.  The
order is therefore an input of every operation that loops, an `Order`, which may arrange a
list in any way that keeps its elements.  `Order.iterate o m` is the sequence a loop over
`m` sees, and `mem_iterate` is all a proof may use about it.
-/

set_option autoImplicit false

namespace TronWallet.Lib

/-- A hash map from `K` to `V`. -/
abbrev UnorderedMap (K V : Type) := AList (fun _ : K => V)

namespace UnorderedMap

variable {K V : Type} [DecidableEq K]

/-- The entries as pairs, in the order they are held. -/
def pairs (m : UnorderedMap K V) : List (K × V) := m.entries.map fun e => (e.1, e.2)

omit [DecidableEq K] in
/-- The empty map has no pairs. -/
@[simp] theorem pairs_empty : pairs (∅ : UnorderedMap K V) = [] := rfl

/-- The entries are what lookup finds. -/
theorem mem_pairs {m : UnorderedMap K V} {k : K} {v : V} :
    (k, v) ∈ pairs m ↔ m.lookup k = some v := by
  unfold pairs
  rw [List.mem_map]
  constructor
  · rintro ⟨⟨k', v'⟩, hmem, heq⟩
    obtain ⟨rfl, rfl⟩ := Prod.mk.inj heq
    exact AList.mem_lookup_iff.mpr hmem
  · intro h
    exact ⟨⟨k, v⟩, AList.mem_lookup_iff.mp h, rfl⟩

omit [DecidableEq K] in
/-- No key occurs twice among the entries. -/
theorem pairs_keys_nodup (m : UnorderedMap K V) : ((pairs m).map Prod.fst).Nodup := by
  have h := m.keys_nodup
  unfold pairs
  rw [List.map_map]
  exact h

/-- Lookup after an insertion. -/
theorem lookup_insert_eq (m : UnorderedMap K V) (k k' : K) (v : V) :
    (m.insert k v).lookup k' = if k' = k then some v else m.lookup k' := by
  by_cases h : k' = k
  · subst h
    rw [if_pos rfl, AList.lookup_insert]
  · rw [if_neg h, AList.lookup_insert_ne h]

/-- A map with one entry holds nothing else. -/
theorem eq_of_lookup_single {k k' : K} {v v' : V}
    (h : ((∅ : UnorderedMap K V).insert k v).lookup k' = some v') : k' = k ∧ v' = v := by
  rw [lookup_insert_eq] at h
  by_cases hk : k' = k
  · rw [if_pos hk] at h
    exact ⟨hk, (Option.some.inj h).symm⟩
  · rw [if_neg hk] at h
    cases h

/-- Lookup after a removal. -/
theorem lookup_erase_eq (m : UnorderedMap K V) (k k' : K) :
    (m.erase k).lookup k' = if k' = k then none else m.lookup k' := by
  by_cases h : k' = k
  · subst h
    rw [if_pos rfl, AList.lookup_erase]
  · rw [if_neg h, AList.lookup_erase_ne h]

/-- Whether the map has no entries. -/
def isEmpty (m : UnorderedMap K V) : Bool := m.entries.isEmpty

omit [DecidableEq K] in
/-- `empty()` tells the empty map from all others. -/
@[simp] theorem isEmpty_iff {m : UnorderedMap K V} : isEmpty m = true ↔ m = ∅ := by
  unfold isEmpty
  rw [List.isEmpty_iff]
  exact ⟨fun h => AList.ext h, fun h => by rw [h]; rfl⟩

/-- `emplace`: an entry that is already there is kept. -/
def emplace (m : UnorderedMap K V) (k : K) (v : V) : UnorderedMap K V :=
  if k ∈ m then m else m.insert k v

/-- What `emplace` leaves: an entry that exists is kept. -/
theorem lookup_emplace (m : UnorderedMap K V) (k k' : K) (v : V) :
    (emplace m k v).lookup k' =
      if k' = k then some ((m.lookup k).getD v) else m.lookup k' := by
  unfold emplace
  by_cases hmem : k ∈ m
  · rw [if_pos hmem]
    obtain ⟨w, hw⟩ := Option.isSome_iff_exists.mp (AList.lookup_isSome.mpr hmem)
    by_cases h : k' = k
    · subst h
      rw [if_pos rfl, hw, Option.getD_some]
    · rw [if_neg h]
  · rw [if_neg hmem, lookup_insert_eq, AList.lookup_eq_none.mpr hmem, Option.getD_none]

/-- Assigning the entries of a list one after the other. -/
def insertAll (m : UnorderedMap K V) (l : List (K × V)) : UnorderedMap K V :=
  l.foldl (fun acc e => acc.insert e.1 e.2) m

/-- After assigning a list of entries, a key holds one of the values listed for it or,
when it is not listed, what it held before. -/
theorem lookup_insertAll (m : UnorderedMap K V) (l : List (K × V)) (k : K) :
    (∃ v, (k, v) ∈ l ∧ (insertAll m l).lookup k = some v) ∨
      ((∀ v, (k, v) ∉ l) ∧ (insertAll m l).lookup k = m.lookup k) := by
  induction l generalizing m with
  | nil => exact Or.inr ⟨fun v hv => (List.not_mem_nil hv), rfl⟩
  | cons e l ih =>
      rcases ih (m.insert e.1 e.2) with ⟨v, hmem, hv⟩ | ⟨hnot, heq⟩
      · exact Or.inl ⟨v, List.mem_cons_of_mem _ hmem, hv⟩
      · by_cases hk : k = e.1
        · subst hk
          refine Or.inl ⟨e.2, List.mem_cons_self, ?_⟩
          exact heq.trans (AList.lookup_insert _)
        · refine Or.inr ⟨fun v hv => ?_, heq.trans (AList.lookup_insert_ne hk)⟩
          rcases List.mem_cons.mp hv with rfl | hv
          · exact hk rfl
          · exact hnot v hv

/-- After assigning the entries of another map, a key holds what it holds there, if
anything. -/
theorem lookup_insertAll_pairs (m m' : UnorderedMap K V) (k : K) :
    (insertAll m m'.pairs).lookup k = (m'.lookup k).or (m.lookup k) := by
  rcases lookup_insertAll m m'.pairs k with ⟨v, hmem, hv⟩ | ⟨hnot, heq⟩
  · rw [hv, mem_pairs.mp hmem]
    rfl
  · have hnone : m'.lookup k = none := by
      by_contra hne
      obtain ⟨v, hv⟩ := Option.ne_none_iff_exists'.mp hne
      exact hnot v (mem_pairs.mpr hv)
    rw [heq, hnone]
    rfl

/-- After assigning a list of entries, a key holds the value listed last for it or, when it
is not listed, what it held before. -/
theorem lookup_insertAll_last (m : UnorderedMap K V) (l : List (K × V)) (k : K) :
    (insertAll m l).lookup k = (l.reverse.lookup k).or (m.lookup k) := by
  induction l generalizing m with
  | nil => rfl
  | cons e l ih =>
      rw [show insertAll m (e :: l) = insertAll (m.insert e.1 e.2) l from rfl, ih,
        lookup_insert_eq, List.reverse_cons, List.lookup_append, Option.or_assoc]
      have hlast : [e].lookup k = if k = e.1 then some e.2 else none := by
        obtain ⟨k', v⟩ := e
        rw [List.lookup_cons, List.lookup_nil]
        by_cases hk : k = k'
        · simp [hk]
        · simp [beq_eq_false_iff_ne.mpr hk, hk]
      rw [hlast]
      by_cases hk : k = e.1
      · simp [hk]
      · simp [hk]

/-- A list of entries repeats a map: the value listed last for a key is the one held. -/
def Repeats (m : UnorderedMap K V) (l : List (K × V)) : Prop :=
  ∀ k v, l.reverse.lookup k = some v → m.lookup k = some v

/-- **Assigning a list of entries changes nothing exactly when it repeats the map.** -/
theorem lookup_insertAll_eq_self {m : UnorderedMap K V} {l : List (K × V)} :
    (∀ k, (insertAll m l).lookup k = m.lookup k) ↔ Repeats m l := by
  simp only [lookup_insertAll_last]
  constructor
  · intro h k v hv
    rw [← h k, hv]
    rfl
  · intro h k
    cases hv : l.reverse.lookup k with
    | none => rfl
    | some v =>
        rw [h k v hv]
        rfl

/-- Assigning a list without repetitions gives each key its value. -/
theorem lookup_insertAll_of_mem (m : UnorderedMap K V) {l : List (K × V)} {k : K} {v : V}
    (hnodup : (l.map Prod.fst).Nodup) (hmem : (k, v) ∈ l) :
    (insertAll m l).lookup k = some v := by
  rcases lookup_insertAll m l k with ⟨v', hmem', hv'⟩ | ⟨hnot, -⟩
  · rw [hv', (Prod.mk.inj (List.inj_on_of_nodup_map hnodup hmem' hmem rfl)).2]
  · exact (hnot v hmem).elim

end UnorderedMap

/-- An iteration order: any rearrangement of the elements visited. -/
structure Order where
  /-- The order in which the elements are visited. -/
  arrange : {α : Type} → List α → List α
  /-- Every element is visited, as often as it occurs. -/
  arrange_perm : ∀ {α : Type} (l : List α), (arrange l).Perm l

namespace Order

/-- The order in which the entries are held. -/
def held : Order := ⟨fun l => l, fun _ => List.Perm.refl _⟩

variable (o : Order)

/-- Every order visits all elements and no others. -/
@[simp] theorem mem_arrange {α : Type} {l : List α} {a : α} : a ∈ o.arrange l ↔ a ∈ l :=
  (o.arrange_perm l).mem_iff

variable {K V : Type} [DecidableEq K]

/-- The entries of a map in the order a loop visits them. -/
def iterate (m : UnorderedMap K V) : List (K × V) := o.arrange m.pairs

/-- A loop over a map visits exactly the entries lookup finds. -/
@[simp] theorem mem_iterate {m : UnorderedMap K V} {k : K} {v : V} :
    (k, v) ∈ o.iterate m ↔ m.lookup k = some v := by
  unfold iterate
  rw [mem_arrange, UnorderedMap.mem_pairs]

omit [DecidableEq K] in
/-- A loop over a map visits no key twice. -/
theorem iterate_keys_nodup (m : UnorderedMap K V) : ((o.iterate m).map Prod.fst).Nodup :=
  ((o.arrange_perm m.pairs).map Prod.fst).nodup_iff.mpr m.pairs_keys_nodup

/-- Assigning to the empty map all that a loop over another one visits gives a map with the
same entries. -/
theorem lookup_insertAll_iterate (m : UnorderedMap K V) (k : K) :
    (UnorderedMap.insertAll ∅ (o.iterate m)).lookup k = m.lookup k := by
  rcases UnorderedMap.lookup_insertAll ∅ (o.iterate m) k with ⟨v, hmem, hv⟩ | ⟨hnot, heq⟩
  · rw [hv, (o.mem_iterate).mp hmem]
  · rw [heq]
    by_contra hne
    obtain ⟨v, hv⟩ := Option.ne_none_iff_exists'.mp (Ne.symm hne)
    exact hnot v (o.mem_iterate.mpr hv)

end Order

end TronWallet.Lib
