import TronWallet.Analysis.ColdWallet
import TronWallet.Model.AccountForms

/-!
# A platform on which runs can be evaluated

`reference` gives each external function of a `Platform` a body that is small enough to
run inside the kernel and keeps what the wallet relies on: a derived key depends on the
password and on the salt, the key stream on the key, the address on the secret, and the
text of a JSON dictionary reads back as the dictionary (`reference_json`).  It is used
for runs on given inputs, and to show that the assumptions made of a platform can be met
together.
-/

set_option autoImplicit false

namespace TronWallet.Reference

open TronWallet.Lib TronWallet.Model TronWallet.Analysis

/-! ## JSON dictionaries of strings -/

/-- The characters of `"key":"value"`. -/
def writeEntry (e : Bytes × Bytes) : Bytes := 34 :: e.1 ++ [34, 58, 34] ++ e.2 ++ [34]

/-- The entries of a dictionary, separated by commas. -/
def writeEntries : List (Bytes × Bytes) → Bytes
  | [] => []
  | [e] => writeEntry e
  | e :: rest => writeEntry e ++ 44 :: writeEntries rest

/-- The strings of a dictionary. -/
def stringEntries (d : Dictionary) : List (Bytes × Bytes) :=
  d.filterMap fun e => match e.2 with
    | .string v => some (e.1, v)
    | _ => none

/-- The text of a dictionary of strings; other values have the text `null`. -/
def jsonWrite : Value → Bytes
  | .dictionary d => 123 :: writeEntries (stringEntries d) ++ [125]
  | _ => [110, 117, 108, 108]

/-- Where the reader is: before the first entry, after a comma, in a key, after it, before
the value, in the value, after the value, and after the closing brace. -/
inductive JsonMode where
  | first
  | entry
  | key (k : Bytes)
  | colon (k : Bytes)
  | quote (k : Bytes)
  | value (k v : Bytes)
  | next
  | done

/-- The entries of a dictionary of strings, `none` for any other text. -/
def readEntries : JsonMode → Bytes → Option (List (Bytes × Bytes))
  | .done, [] => some []
  | _, [] => none
  | .first, c :: cs =>
    if c = 125 then readEntries .done cs else if c = 34 then readEntries (.key []) cs else none
  | .entry, c :: cs => if c = 34 then readEntries (.key []) cs else none
  | .key k, c :: cs =>
    if c = 34 then readEntries (.colon k) cs else readEntries (.key (k ++ [c])) cs
  | .colon k, c :: cs => if c = 58 then readEntries (.quote k) cs else none
  | .quote k, c :: cs => if c = 34 then readEntries (.value k []) cs else none
  | .value k v, c :: cs =>
    if c = 34 then (readEntries .next cs).map ((k, v) :: ·)
    else readEntries (.value k (v ++ [c])) cs
  | .next, c :: cs =>
    if c = 44 then readEntries .entry cs else if c = 125 then readEntries .done cs else none
  | .done, _ :: _ => none

/-- The dictionary of strings a text stands for. -/
def jsonRead : Bytes → Option Value
  | 123 :: cs => (readEntries .first cs).map fun l =>
      .dictionary (l.map fun e => (e.1, .string e.2))
  | _ => none

/-- A text without quotation marks is read up to the one that follows. -/
theorem readEntries_key {k : Bytes} (h : (34 : UInt8) ∉ k) (k₀ rest : Bytes) :
    readEntries (.key k₀) (k ++ 34 :: rest) = readEntries (.colon (k₀ ++ k)) rest := by
  induction k generalizing k₀ with
  | nil => simp [readEntries]
  | cons c k ih =>
      rw [List.mem_cons, not_or] at h
      rw [List.cons_append, readEntries, if_neg (Ne.symm h.1), ih h.2]
      simp

/-- The characters of a value are read up to its quote. -/
theorem readEntries_value {v : Bytes} (h : (34 : UInt8) ∉ v) (k v₀ rest : Bytes) :
    readEntries (.value k v₀) (v ++ 34 :: rest) =
      (readEntries .next rest).map ((k, v₀ ++ v) :: ·) := by
  induction v generalizing v₀ with
  | nil => simp [readEntries]
  | cons c v ih =>
      rw [List.mem_cons, not_or] at h
      rw [List.cons_append, readEntries, if_neg (Ne.symm h.1), ih h.2]
      simp

/-- An entry is read, and then what follows it. -/
theorem readEntries_entry {e : Bytes × Bytes} (h₁ : (34 : UInt8) ∉ e.1) (h₂ : (34 : UInt8) ∉ e.2)
    (rest : Bytes) : readEntries .entry (writeEntry e ++ rest) =
      (readEntries .next rest).map (e :: ·) := by
  have hshape : writeEntry e ++ rest = 34 :: (e.1 ++ 34 :: 58 :: 34 :: (e.2 ++ 34 :: rest)) := by
    simp [writeEntry]
  rw [hshape, readEntries, if_pos rfl, readEntries_key h₁, readEntries, if_pos rfl, readEntries,
    if_pos rfl, readEntries_value h₂]
  simp

/-- Entries are read up to the closing brace. -/
theorem readEntries_entries {l : List (Bytes × Bytes)}
    (h : ∀ e ∈ l, (34 : UInt8) ∉ e.1 ∧ (34 : UInt8) ∉ e.2) (hne : l ≠ []) :
    readEntries .entry (writeEntries l ++ [125]) = some l := by
  induction l with
  | nil => exact (hne rfl).elim
  | cons e l ih =>
      obtain ⟨h₁, h₂⟩ := h e List.mem_cons_self
      cases l with
      | nil =>
          rw [writeEntries, readEntries_entry h₁ h₂]
          simp [readEntries]
      | cons e' l =>
          have hrest := ih (fun x hx => h x (List.mem_cons_of_mem _ hx)) (List.cons_ne_nil _ _)
          rw [writeEntries, List.append_assoc, readEntries_entry h₁ h₂, List.cons_append,
            readEntries, if_pos rfl, hrest]
          · rfl
          · simp

/-- Before the first entry the reader also accepts the closing brace. -/
theorem readEntries_first {l : List (Bytes × Bytes)}
    (h : ∀ e ∈ l, (34 : UInt8) ∉ e.1 ∧ (34 : UInt8) ∉ e.2) :
    readEntries .first (writeEntries l ++ [125]) = some l := by
  cases l with
  | nil => simp [writeEntries, readEntries]
  | cons e l =>
      rw [← readEntries_entries h (List.cons_ne_nil _ _)]
      obtain ⟨cs, hcs⟩ : ∃ cs, writeEntries (e :: l) ++ [125] = 34 :: cs := by
        cases l with
        | nil => exact ⟨_, rfl⟩
        | cons e' l => exact ⟨_, rfl⟩
      rw [hcs, readEntries, readEntries, if_neg (by decide), if_pos rfl]

/-- A dictionary of strings is its strings. -/
theorem map_stringEntries {d : Dictionary} (h : Plain d) :
    (stringEntries d).map (fun e => (e.1, Value.string e.2)) = d := by
  induction d with
  | nil => rfl
  | cons e d ih =>
      obtain ⟨k, v⟩ := e
      obtain ⟨-, v', hv, -⟩ := h (k, v) List.mem_cons_self
      simp only at hv
      subst hv
      have hrest := ih fun x hx => h x (List.mem_cons_of_mem _ hx)
      unfold stringEntries at hrest ⊢
      simp only [List.filterMap_cons, List.map_cons, hrest]

/-- Reading inverts writing on dictionaries of plain strings. -/
theorem jsonRead_jsonWrite {d : Dictionary} (h : Plain d) :
    jsonRead (jsonWrite (.dictionary d)) = some (.dictionary d) := by
  have hplain : ∀ e ∈ stringEntries d, (34 : UInt8) ∉ e.1 ∧ (34 : UInt8) ∉ e.2 := by
    intro e he
    have hmem : (e.1, Value.string e.2) ∈ d := by
      rw [← map_stringEntries h]
      exact List.mem_map.mpr ⟨e, he, rfl⟩
    obtain ⟨hkey, v, hv, hval⟩ := h _ hmem
    cases hv
    exact ⟨fun hq => absurd (hkey _ hq) (by decide), fun hq => absurd (hval _ hq) (by decide)⟩
  unfold jsonWrite jsonRead
  simp only [List.cons_append, readEntries_first hplain, Option.map_some, map_stringEntries h]

/-! ## The platform -/

/-- A derived key: whether the password begins with an odd byte, seven bytes of the salt,
eight constant bytes, the length of the password and the password. -/
def derivedByte (pass salt : Bytes) (i : ℕ) : UInt8 :=
  if i = 0 then (if (pass.getD 0 0).toNat % 2 = 1 then 128 else 0)
  else if i < 8 then salt.getD (i - 1) 0
  else if i < 16 then 1
  else if i = 16 then UInt8.ofNat (min pass.length 255)
  else pass.getD (i - 17) 0

/-- The public key is the secret written twice. -/
def pubkeyCreate (s : Secret) : Option H512 :=
  if s = 0 then none
  else some ⟨s.m_data ++ s.m_data, by rw [List.length_append, s.size_eq]⟩

/-- The signature is the secret followed by what it signs. -/
def ecdsaSign (s : Secret) (h : H256) : Option H520 :=
  if s = 0 then none
  else some ⟨s.m_data ++ h.m_data ++ [0], by simp [s.size_eq, h.size_eq]⟩

/-- The platform. -/
def reference : Platform where
  pbkdf2Stream pass salt _ i := derivedByte pass salt i
  scryptStream pass salt _ _ _ i := derivedByte pass salt i
  ctrStream key _ i := key.getD (i % 16) 0
  sha3 b := FixedHash.ofBytesLeft b
  sha256 b := FixedHash.ofBytesLeft b
  ecPubkeyCreate := pubkeyCreate
  ecdsaSign := ecdsaSign
  jsonWrite := jsonWrite
  jsonRead := jsonRead

/-- The JSON of the platform obeys the laws the wallet relies on. -/
theorem reference_json : JsonLaws reference where
  read_write _ _ h := jsonRead_jsonWrite h
  write_ne_nil _ := List.cons_ne_nil _ _
  read_nil := rfl

/-- The second half of a derived key: the length of the password and its first bytes. -/
theorem cropped_pbkdf2 (pass salt : Bytes) :
    cropped (reference.pbkdf2 pass salt iterations 32) 16 16 =
      UInt8.ofNat (min pass.length 255) :: (List.range 15).map fun i => pass.getD i 0 := by
  rfl

/-- The authentication code of a key file tells a short password from every other one. -/
theorem reference_mac {c : Account} (hlen : c.password.length ≤ 15) {pass : Bytes}
    (hne : pass ≠ c.password) : SecretStore.decrypt reference (c.crypto reference) pass = [] := by
  have hmac : SecretStore.macMatches reference (c.crypto reference)
      (reference.pbkdf2 pass c.salt.m_data iterations 32) = false := by
    rw [Bool.eq_false_iff]
    intro hmatches
    unfold SecretStore.macMatches Account.crypto at hmatches
    dsimp only at hmatches
    rw [if_neg Bool.false_ne_true] at hmatches
    have hbytes := congrArg (fun h : H256 => h.m_data.take 16) (of_decide_eq_true hmatches)
    rw [cropped_pbkdf2, cropped_pbkdf2] at hbytes
    obtain ⟨hlength, hgets⟩ : UInt8.ofNat (min c.password.length 255) =
        UInt8.ofNat (min pass.length 255) ∧
          ∀ i < 15, c.password[i]?.getD 0 = pass[i]?.getD 0 := by
      have htake : ∀ f : ℕ → UInt8, List.take 31 ((List.range 15).map f) = (List.range 15).map f :=
        fun f => List.take_of_length_le (by simp)
      simpa [reference, FixedHash.ofBytesLeft, List.take_append, htake] using hbytes
    have hmin : min c.password.length 255 = min pass.length 255 := by
      have hnat := congrArg UInt8.toNat hlength
      rw [UInt8.toNat_ofNat', UInt8.toNat_ofNat'] at hnat
      omega
    refine hne (List.ext_getElem (by omega) fun i h₁ h₂ => ?_)
    have hget := hgets i (by omega)
    rw [List.getElem?_eq_getElem h₁, List.getElem?_eq_getElem h₂] at hget
    exact hget.symm
  unfold SecretStore.decrypt
  have hkey : SecretStore.derivedKey? reference (c.crypto reference) pass =
      some (reference.pbkdf2 pass c.salt.m_data iterations 32) := by
    simp [SecretStore.derivedKey?, Account.crypto]
  rw [hkey]
  dsimp only
  rw [if_pos hmac]

/-- Text that is not ASCII loses the upper halves of its characters. -/
def narrow : Unicode where
  toWide := widen
  toUTF8 wide := wide.map UInt16.toUInt8

end TronWallet.Reference
