import TronWallet.Model.Bytes
import Mathlib.Data.Rat.Defs

/-!
# The JSON value tree

`base::Value` as `base/values.cc` has it.  A dictionary is a `std::map`, an association
list kept in the order of its keys.  `setString` goes through `DictionaryValue::Set`,
which expands dots in its first argument into nested dictionaries; for a key without a
dot that is a plain assignment (`setString_of_no_dot`).
-/

set_option autoImplicit false

namespace TronWallet.Model

/-- A JSON value. SOURCE: base/values.h -/
inductive Value where
  | null
  | boolean (b : Bool)
  | integer (i : ℤ)
  | double (q : ℚ)
  | string (s : Bytes)
  | binary (b : Bytes)
  | list (l : List Value)
  | dictionary (d : List (Bytes × Value))

/-- The entries of a dictionary, sorted by key. -/
abbrev Dictionary := List (Bytes × Value)

namespace Dictionary

/-- `dictionary_.find(key)`. -/
def find : Dictionary → Bytes → Option Value
  | [], _ => none
  | (k, v) :: rest, key => if key = k then some v else find rest key

/-- `dictionary_[key] = value`: replaced where it is, else inserted at its place.
SOURCE: base/values.cc:441-444 -/
def setWithoutPathExpansion (key : Bytes) (value : Value) : Dictionary → Dictionary
  | [] => [(key, value)]
  | (k, v) :: rest =>
    if key = k then (k, value) :: rest
    else if key < k then (key, value) :: (k, v) :: rest
    else (k, v) :: setWithoutPathExpansion key value rest

/-- `GetDictionary` for a key without dots: the child only if it is a dictionary.
SOURCE: base/values.cc:583-594 -/
def getDictionary (d : Dictionary) (key : Bytes) : Option Dictionary :=
  match d.find key with
  | some (.dictionary child) => some child
  | _ => none

/-- `Set` along the keys a path expands to: every key but the last names a child
dictionary, made anew where there is none.
SOURCE: base/values.cc:389-413 -/
def setPath (value : Value) : List Bytes → Dictionary → Dictionary
  | [], d => d
  | [key], d => setWithoutPathExpansion key value d
  | key :: rest, d =>
    setWithoutPathExpansion key
      (.dictionary (setPath value rest ((d.getDictionary key).getD []))) d

/-- The full stop `Set` splits its path at. -/
def dot : UInt8 := 46

/-- The keys of a path, the pieces between its dots. -/
def splitPath : Bytes → List Bytes
  | [] => [[]]
  | c :: cs =>
    if c = dot then [] :: splitPath cs
    else match splitPath cs with
      | [] => [[c]]
      | key :: rest => (c :: key) :: rest

/-- `DictionaryValue::SetString`. SOURCE: base/values.cc:431-434 -/
def setString (path value : Bytes) (d : Dictionary) : Dictionary :=
  setPath (.string value) (splitPath path) d

/-- A path without a dot is one key. -/
theorem splitPath_of_no_dot {path : Bytes} (h : dot ∉ path) : splitPath path = [path] := by
  induction path with
  | nil => rfl
  | cons c cs ih =>
      rw [List.mem_cons, not_or] at h
      rw [splitPath, if_neg (Ne.symm h.1), ih h.2]

/-- For a key without a dot, `SetString` is a plain assignment. -/
theorem setString_of_no_dot {path : Bytes} (h : dot ∉ path) (value : Bytes) (d : Dictionary) :
    setString path value d = setWithoutPathExpansion path (.string value) d := by
  unfold setString
  rw [splitPath_of_no_dot h]
  rfl

/-- What an assigned dictionary holds under a key. -/
theorem find_setWithoutPathExpansion (key key' : Bytes) (value : Value) (d : Dictionary) :
    (setWithoutPathExpansion key value d).find key' =
      if key' = key then some value else d.find key' := by
  induction d with
  | nil => rfl
  | cons e rest ih =>
      obtain ⟨k, v⟩ := e
      unfold setWithoutPathExpansion
      by_cases hk : key = k
      · subst hk
        simp only [if_true, find]
        by_cases h : key' = key <;> simp [h]
      · by_cases hlt : key < k
        · rw [if_neg hk, if_pos hlt]
          simp only [find]
        · rw [if_neg hk, if_neg hlt]
          simp only [find, ih]
          by_cases h : key' = k
          · have hne : key' ≠ key := fun h' => hk (h'.symm.trans h)
            simp [h, Ne.symm hk]
          · simp [h]

/-- An entry of an assigned dictionary is the new one or an old one. -/
theorem mem_setWithoutPathExpansion {key : Bytes} {value : Value} {d : Dictionary}
    {e : Bytes × Value} (h : e ∈ setWithoutPathExpansion key value d) :
    e = (key, value) ∨ e ∈ d := by
  induction d with
  | nil => exact Or.inl (List.mem_singleton.mp h)
  | cons e' rest ih =>
      obtain ⟨k, v⟩ := e'
      unfold setWithoutPathExpansion at h
      by_cases hk : key = k
      · rw [if_pos hk] at h
        rcases List.mem_cons.mp h with rfl | h
        · exact Or.inl (by rw [hk])
        · exact Or.inr (List.mem_cons_of_mem _ h)
      · rw [if_neg hk] at h
        by_cases hlt : key < k
        · rw [if_pos hlt] at h
          exact List.mem_cons.mp h
        · rw [if_neg hlt] at h
          rcases List.mem_cons.mp h with rfl | h
          · exact Or.inr List.mem_cons_self
          · exact (ih h).imp_right (List.mem_cons_of_mem _)

/-- A dictionary in the order of its keys, each key once. -/
def Sorted (d : Dictionary) : Prop := (d.map Prod.fst).Pairwise (· < ·)

/-- Assignment keeps the order of the keys. -/
theorem sorted_setWithoutPathExpansion {key : Bytes} {value : Value} {d : Dictionary}
    (h : d.Sorted) : (setWithoutPathExpansion key value d).Sorted := by
  induction d with
  | nil => simp [Sorted, setWithoutPathExpansion]
  | cons e rest ih =>
      obtain ⟨k, v⟩ := e
      unfold Sorted at h
      rw [List.map_cons, List.pairwise_cons] at h
      obtain ⟨hk, hrest⟩ := h
      unfold setWithoutPathExpansion
      by_cases heq : key = k
      · rw [if_pos heq]
        exact List.pairwise_cons.mpr ⟨hk, hrest⟩
      · rw [if_neg heq]
        by_cases hlt : key < k
        · rw [if_pos hlt]
          refine List.pairwise_cons.mpr ⟨?_, List.pairwise_cons.mpr ⟨hk, hrest⟩⟩
          intro k' hk'
          rcases List.mem_cons.mp hk' with rfl | hk'
          · exact hlt
          · exact List.lt_trans hlt (hk k' hk')
        · rw [if_neg hlt]
          have hgt : k < key :=
            (List.le_iff_lt_or_eq.mp (List.not_lt.mp hlt)).resolve_right (Ne.symm heq)
          refine List.pairwise_cons.mpr ⟨?_, ih hrest⟩
          intro k' hk'
          obtain ⟨e', he', rfl⟩ := List.mem_map.mp hk'
          rcases mem_setWithoutPathExpansion he' with rfl | he'
          · exact hgt
          · exact hk _ (List.mem_map.mpr ⟨e', he', rfl⟩)

/-- A key above all the others is assigned at the end. -/
theorem setWithoutPathExpansion_of_lt {key : Bytes} (value : Value) {d : Dictionary}
    (h : ∀ k ∈ d.map Prod.fst, k < key) :
    setWithoutPathExpansion key value d = d ++ [(key, value)] := by
  induction d with
  | nil => rfl
  | cons e rest ih =>
      have hlt : e.1 < key := h e.1 List.mem_cons_self
      have hne : key ≠ e.1 := by
        intro heq
        rw [← heq] at hlt
        exact List.lt_irrefl _ hlt
      have hnlt : ¬key < e.1 := fun hgt => List.lt_irrefl _ (List.lt_trans hgt hlt)
      rw [setWithoutPathExpansion, if_neg hne, if_neg hnlt,
        ih fun k hk => h k (List.mem_cons_of_mem _ hk), List.cons_append]

/-- In a sorted dictionary the entries are what `find` returns. -/
theorem find_eq_some_iff_mem {d : Dictionary} (h : d.Sorted) {key : Bytes} {value : Value} :
    d.find key = some value ↔ (key, value) ∈ d := by
  induction d with
  | nil => simp [find]
  | cons e rest ih =>
      obtain ⟨k, v⟩ := e
      unfold Sorted at h
      rw [List.map_cons, List.pairwise_cons] at h
      obtain ⟨hk, hrest⟩ := h
      rw [find, List.mem_cons]
      by_cases heq : key = k
      · subst heq
        rw [if_pos rfl]
        constructor
        · intro hv
          cases hv
          exact Or.inl rfl
        · rintro (hv | hv)
          · rw [(Prod.mk.inj hv).2]
          · have := hk key (List.mem_map.mpr ⟨_, hv, rfl⟩)
            exact absurd this (List.lt_irrefl _)
      · rw [if_neg heq, ih hrest]
        simp only [Prod.mk.injEq, heq, false_and, false_or]

end Dictionary

end TronWallet.Model
