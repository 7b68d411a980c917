import Mathlib.Order.Defs.Unbundled

/-!
# Maps kept in the order of their keys

An ordered map is the list of its entries with the order as a field, so that two maps with
the same entries are equal.  `emplace` keeps an entry that is there.  Emplacing the entries
of a map one after the other, as a loop over it does, rebuilds the map
(`foldl_emplace_entries`).
-/

set_option autoImplicit false

namespace TronWallet.Lib

/-- A map from `K` to `V`, in the order of its keys, each key once. -/
structure SortedMap (K V : Type) [LT K] where
  entries : List (K × V)
  sorted : (entries.map Prod.fst).Pairwise (· < ·)
deriving DecidableEq

namespace SortedMap

variable {K V : Type} [LT K]

/-- The map without entries. -/
def empty : SortedMap K V := ⟨[], List.Pairwise.nil⟩

/-- The empty map has no entries. -/
@[simp] theorem entries_empty : (empty : SortedMap K V).entries = [] := rfl

/-- Maps with the same entries are equal. -/
theorem ext_entries {m m' : SortedMap K V} (h : m.entries = m'.entries) : m = m' := by
  cases m
  cases m'
  cases h
  rfl

/-- Of two keys at most one is below the other. -/
theorem not_lt_of_lt [Std.Irrefl fun a b : K => a < b] [IsTrans K (· < ·)] {k k' : K}
    (h : k < k') : ¬k' < k := fun h' =>
  Std.Irrefl.irrefl (r := fun a b : K => a < b) k (IsTrans.trans k k' k h h')

variable [DecidableLT K] [DecidableEq K]

/-- An entry put at its place in a list of entries, unless its key is there. -/
def emplaceEntry (k : K) (v : V) : List (K × V) → List (K × V)
  | [] => [(k, v)]
  | e :: rest =>
    if k = e.1 then e :: rest
    else if k < e.1 then (k, v) :: e :: rest
    else e :: emplaceEntry k v rest

/-- The keys after an entry has been put in. -/
theorem mem_map_emplaceEntry {k k' : K} {v : V} {l : List (K × V)}
    (h : k' ∈ (emplaceEntry k v l).map Prod.fst) : k' = k ∨ k' ∈ l.map Prod.fst := by
  induction l with
  | nil => exact Or.inl (List.mem_singleton.mp h)
  | cons e rest ih =>
      unfold emplaceEntry at h
      by_cases heq : k = e.1
      · rw [if_pos heq] at h
        exact Or.inr h
      · rw [if_neg heq] at h
        by_cases hlt : k < e.1
        · rw [if_pos hlt] at h
          exact List.mem_cons.mp h
        · rw [if_neg hlt] at h
          rcases List.mem_cons.mp h with rfl | h
          · exact Or.inr List.mem_cons_self
          · exact (ih h).imp_right (List.mem_cons_of_mem _)

section Order

variable [Std.Irrefl fun a b : K => a < b] [IsTrans K (· < ·)]

/-- A key above all the others goes to the end. -/
theorem emplaceEntry_of_lt {k : K} (v : V) {l : List (K × V)}
    (h : ∀ k' ∈ l.map Prod.fst, k' < k) : emplaceEntry k v l = l ++ [(k, v)] := by
  induction l with
  | nil => rfl
  | cons e rest ih =>
      have hlt : e.1 < k := h e.1 List.mem_cons_self
      have hne : k ≠ e.1 := by
        intro heq
        rw [← heq] at hlt
        exact not_lt_of_lt hlt hlt
      rw [emplaceEntry, if_neg hne, if_neg (not_lt_of_lt hlt),
        ih fun k' hk' => h k' (List.mem_cons_of_mem _ hk'), List.cons_append]

variable [Std.Trichotomous fun a b : K => a < b]

omit [Std.Irrefl fun a b : K => a < b] in
/-- An entry put in keeps the order of the keys. -/
theorem sorted_emplaceEntry (k : K) (v : V) {l : List (K × V)}
    (h : (l.map Prod.fst).Pairwise (· < ·)) :
    ((emplaceEntry k v l).map Prod.fst).Pairwise (· < ·) := by
  induction l with
  | nil => exact List.pairwise_singleton _ _
  | cons e rest ih =>
      rw [List.map_cons, List.pairwise_cons] at h
      unfold emplaceEntry
      by_cases heq : k = e.1
      · rw [if_pos heq]
        exact List.pairwise_cons.mpr h
      · rw [if_neg heq]
        by_cases hlt : k < e.1
        · rw [if_pos hlt]
          refine List.pairwise_cons.mpr ⟨fun k' hk' => ?_, List.pairwise_cons.mpr h⟩
          rcases List.mem_cons.mp hk' with rfl | hk'
          · exact hlt
          · exact IsTrans.trans _ _ _ hlt (h.1 k' hk')
        · rw [if_neg hlt]
          have hgt : e.1 < k := Decidable.of_not_not fun hgt =>
            heq (Std.Trichotomous.trichotomous (r := fun a b : K => a < b) k e.1 hlt hgt)
          refine List.pairwise_cons.mpr ⟨fun k' hk' => ?_, ih h.2⟩
          rcases mem_map_emplaceEntry hk' with rfl | hk'
          · exact hgt
          · exact h.1 k' hk'

/-- `emplace`: an entry that is already there is kept. -/
def emplace (m : SortedMap K V) (k : K) (v : V) : SortedMap K V :=
  ⟨emplaceEntry k v m.entries, sorted_emplaceEntry k v m.sorted⟩

/-- Emplacing entries with ever greater keys appends them. -/
theorem entries_foldl_emplace (l : List (K × V)) (m : SortedMap K V)
    (h : ((m.entries ++ l).map Prod.fst).Pairwise (· < ·)) :
    (l.foldl (fun acc e => acc.emplace e.1 e.2) m).entries = m.entries ++ l := by
  induction l generalizing m with
  | nil => rw [List.foldl_nil, List.append_nil]
  | cons e l ih =>
      have habove : ∀ k' ∈ m.entries.map Prod.fst, k' < e.1 := by
        rw [List.map_append, List.map_cons, List.pairwise_append] at h
        exact fun k' hk' => h.2.2 k' hk' e.1 List.mem_cons_self
      have hentries : (m.emplace e.1 e.2).entries = m.entries ++ [e] :=
        emplaceEntry_of_lt e.2 habove
      have happend : (m.emplace e.1 e.2).entries ++ l = m.entries ++ e :: l := by
        rw [hentries, List.append_assoc, List.singleton_append]
      rw [List.foldl_cons, ih _ (by rw [happend]; exact h), happend]

/-- A loop that emplaces the entries of a map rebuilds the map. -/
theorem foldl_emplace_entries (m : SortedMap K V) :
    m.entries.foldl (fun acc e => acc.emplace e.1 e.2) empty = m :=
  ext_entries (entries_foldl_emplace m.entries empty m.sorted)

end Order

/-! ## Looking up -/

omit [DecidableLT K] in
/-- The value of a key. -/
def lookup (m : SortedMap K V) (k : K) : Option V :=
  (m.entries.find? fun e => e.1 = k).map Prod.snd

omit [DecidableLT K] in
/-- Nothing is found in the empty map. -/
@[simp] theorem lookup_empty (k : K) : (empty : SortedMap K V).lookup k = none := rfl

omit [LT K] [DecidableLT K] in
/-- The first entry is found under its key. -/
theorem find?_cons_of_eq {k : K} {e : K × V} (h : e.1 = k) (l : List (K × V)) :
    (e :: l).find? (fun e => e.1 = k) = some e :=
  List.find?_cons_of_pos (by simpa using h)

omit [LT K] [DecidableLT K] in
/-- Under another key than the first one the search goes on. -/
theorem find?_cons_of_ne {k : K} {e : K × V} (h : e.1 ≠ k) (l : List (K × V)) :
    (e :: l).find? (fun e => e.1 = k) = l.find? fun e => e.1 = k :=
  List.find?_cons_of_neg (by simpa using h)

section Lookup

variable [Std.Irrefl fun a b : K => a < b] [IsTrans K (· < ·)]

omit [DecidableLT K] [IsTrans K (· < ·)] in
/-- The entries are the keys with their values. -/
theorem mem_entries_iff {m : SortedMap K V} {e : K × V} :
    e ∈ m.entries ↔ m.lookup e.1 = some e.2 := by
  obtain ⟨l, hl⟩ := m
  change e ∈ l ↔ (l.find? fun e' => e'.1 = e.1).map Prod.snd = some e.2
  induction l with
  | nil => exact ⟨fun h => absurd h List.not_mem_nil, fun h => nomatch h⟩
  | cons e' l ih =>
      rw [List.map_cons, List.pairwise_cons] at hl
      by_cases hkey : e'.1 = e.1
      · rw [find?_cons_of_eq hkey, List.mem_cons]
        constructor
        · rintro (rfl | hmem)
          · rfl
          · have hlt : e'.1 < e.1 := hl.1 e.1 (List.mem_map_of_mem hmem)
            rw [hkey] at hlt
            exact absurd hlt (Std.Irrefl.irrefl (r := fun a b : K => a < b) e.1)
        · intro h
          exact Or.inl (Prod.ext hkey.symm (Option.some.inj h).symm)
      · rw [find?_cons_of_ne hkey, ← ih hl.2, List.mem_cons,
          or_iff_right fun h => hkey (congrArg Prod.fst h).symm]

omit [DecidableLT K] in
/-- Nothing is found of a key below all the others. -/
theorem find?_eq_none_of_lt {k : K} {l : List (K × V)} (h : ∀ k' ∈ l.map Prod.fst, k < k') :
    l.find? (fun e => e.1 = k) = none := by
  refine List.find?_eq_none.mpr fun e he heq => ?_
  have hlt := h e.1 (List.mem_map_of_mem he)
  rw [of_decide_eq_true heq] at hlt
  exact not_lt_of_lt hlt hlt

/-- What is found after an entry has been put in. -/
theorem find?_emplaceEntry (k k' : K) (v : V) {l : List (K × V)}
    (h : (l.map Prod.fst).Pairwise (· < ·)) :
    (emplaceEntry k v l).find? (fun e => e.1 = k') =
      (l.find? fun e => e.1 = k').or (if k = k' then some (k, v) else none) := by
  induction l with
  | nil =>
      by_cases hk : k = k'
      · simp [emplaceEntry, hk]
      · simp [emplaceEntry, hk]
  | cons e rest ih =>
      rw [List.map_cons, List.pairwise_cons] at h
      unfold emplaceEntry
      by_cases heq : k = e.1
      · rw [if_pos heq]
        by_cases hk : k = k'
        · rw [find?_cons_of_eq (heq.symm.trans hk), Option.some_or]
        · rw [if_neg hk, Option.or_none]
      · rw [if_neg heq]
        by_cases hlt : k < e.1
        · rw [if_pos hlt]
          by_cases hk : k = k'
          · have hnone : (e :: rest).find? (fun e => e.1 = k') = none := by
              rw [← hk]
              refine find?_eq_none_of_lt fun k' hk' => ?_
              rcases List.mem_cons.mp hk' with rfl | hk'
              · exact hlt
              · exact IsTrans.trans _ _ _ hlt (h.1 k' hk')
            rw [find?_cons_of_eq hk, hnone, if_pos hk, Option.none_or]
          · rw [find?_cons_of_ne hk, if_neg hk, Option.or_none]
        · rw [if_neg hlt]
          by_cases hk : e.1 = k'
          · rw [find?_cons_of_eq hk, find?_cons_of_eq hk, Option.some_or]
          · rw [find?_cons_of_ne hk, find?_cons_of_ne hk, ih h.2]

variable [Std.Trichotomous fun a b : K => a < b]

/-- What is looked up after `emplace`. -/
theorem lookup_emplace (m : SortedMap K V) (k k' : K) (v : V) :
    (m.emplace k v).lookup k' = (m.lookup k').or (if k = k' then some v else none) := by
  change ((emplaceEntry k v m.entries).find? fun e => e.1 = k').map Prod.snd = _
  rw [find?_emplaceEntry k k' v m.sorted, lookup]
  cases m.entries.find? fun e => e.1 = k' with
  | some e => rfl
  | none =>
      by_cases hk : k = k'
      · rw [if_pos hk, if_pos hk]
        rfl
      · rw [if_neg hk, if_neg hk]
        rfl

/-- What is looked up after a loop that emplaces: the first value of the key stays. -/
theorem lookup_foldl_emplace {α : Type} (key : α → K) (value : α → V) (l : List α)
    (m : SortedMap K V) (k : K) :
    (l.foldl (fun acc a => acc.emplace (key a) (value a)) m).lookup k =
      (m.lookup k).or ((l.find? fun a => key a = k).map value) := by
  induction l generalizing m with
  | nil => exact Option.or_none.symm
  | cons a l ih =>
      rw [List.foldl_cons, ih, lookup_emplace, Option.or_assoc]
      by_cases hk : key a = k
      · rw [if_pos hk, Option.some_or, List.find?_cons_of_pos (by simpa using hk)]
        rfl
      · rw [if_neg hk, Option.none_or, List.find?_cons_of_neg (by simpa using hk)]

end Lookup

/-! ## Changing the values -/

omit [DecidableLT K] [DecidableEq K] in
/-- The map with every value changed. -/
def mapValues {W : Type} (f : V → W) (m : SortedMap K V) : SortedMap K W where
  entries := m.entries.map fun e => (e.1, f e.2)
  sorted := by
    rw [List.map_map]
    exact m.sorted

omit [DecidableLT K] in
/-- A changed value is found under its old key. -/
theorem lookup_mapValues {W : Type} (f : V → W) (m : SortedMap K V) (k : K) :
    (m.mapValues f).lookup k = (m.lookup k).map f := by
  rw [lookup, lookup, mapValues, List.find?_map, Option.map_map, Option.map_map]
  rfl

end SortedMap

end TronWallet.Lib
