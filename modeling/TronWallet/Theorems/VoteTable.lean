import TronWallet.Analysis.Texts
import TronWallet.Model.VoteForm
import TronWallet.Reference.Platform
import TronWallet.Theorems.AddressCodec

/-!
# The votes of the table

Every row of the list shows the address of a witness as text and is read back from that
text, and its cell is read as a number of 64 bits.  The address always comes back.  The
number does when 64 bits hold it; where they do not, the row is left out, and nothing else
of the contract shows that it was filled in.
-/

set_option autoImplicit false

namespace TronWallet.Theorems

open TronWallet.Model TronWallet.Analysis TronWallet.Reference

/-! ## The property -/

/-- The witnesses with what is typed into their cells, in the order of the rows. -/
def voteTable (witness_list : List Witness) (typed : ℕ → Bytes) : List (Witness × Bytes) :=
  witness_list.mapIdx fun i w => (w, typed i)

/-- The vote of a row. -/
def voteFor (row : Witness × Bytes) : Vote where
  vote_address := row.1.address
  vote_count := typedNumber row.2

/-- The votes of the table: one for every row that is filled in. -/
def typedVotes (table : List (Witness × Bytes)) : List Vote :=
  (table.filter fun row => row.2 ≠ []).map voteFor

/-- The form with the table. -/
def filledForm (P : Platform) (U : Unicode) (s : VoteForm) (witness_list : List Witness)
    (typed : ℕ → Bytes) : VoteForm :=
  (s.updateWitnessList P U witness_list).typeVotes fun i => widen (typed i)

/-- There is no contract, or one with the votes of the table. -/
def TableVoted (contract : Option VoteWitnessContract) (table : List (Witness × Bytes)) : Prop :=
  ∀ c, contract = some c → c.votes = typedVotes table

/-! ## A row -/

/-- Whether a row becomes a vote. -/
def rowHeld (row : Witness × Bytes) : Bool := row.2 ≠ [] ∧ typedNumber row.2 < 2 ^ 63

/-- A row of the list with the text of its cell. -/
def rowItem (P : Platform) (U : Unicode) (row : Witness × Bytes) : WitnessItemData :=
  { VoteForm.itemData P U row.1 with myvotes := widen row.2 }

section Rows

variable {P : Platform} {U : Unicode}

/-- The address on the screen is decoded to the address. -/
theorem decoded_address (w : Witness) :
    (addressDecodeBase58Check P (wideToUTF8 U (VoteForm.itemData P U w).address)).2 =
      w.address := by
  have hascii : ∀ c ∈ addressEncodeBase58Check P w.address, c < 128 := fun c hc =>
    ascii_of_base58Char (base58Char_encodeBase58 _ c hc)
  have hback : wideToUTF8 U (VoteForm.itemData P U w).address =
      addressEncodeBase58Check P w.address := wideToUTF8_utf8ToWide U hascii
  rw [hback]
  exact congrArg Prod.snd (decodeBase58Check_encodeBase58Check P w.address)

/-- What a row adds to the votes. -/
theorem addVote_row (acc : List Vote × StringMap) {row : Witness × Bytes}
    (hdigits : DigitText row.2) :
    (VoteForm.addVote P U acc (rowItem P U row)).1 =
      acc.1 ++ (if rowHeld row then [voteFor row] else []) := by
  obtain ⟨w, text⟩ := row
  unfold VoteForm.addVote
  by_cases hnil : text = []
  · have hcell : (rowItem P U (w, text)).myvotes = [] := by
      rw [hnil]
      rfl
    have hskipped : rowHeld (w, text) = false := by simp [rowHeld, hnil]
    rw [if_pos hcell, hskipped]
    simp
  have hcell : (rowItem P U (w, text)).myvotes ≠ [] := by
    intro h
    exact hnil (List.map_eq_nil_iff.mp h)
  have hread : stringToInt64 (wideToUTF8 U (rowItem P U (w, text)).myvotes) =
      (decide (text ≠ [] ∧ typedNumber text < 2 ^ 63),
        min (typedNumber text : ℤ) (2 ^ 63 - 1)) := stringToInt64_widen U hdigits
  rw [if_neg hcell, hread]
  by_cases hlt : typedNumber text < 2 ^ 63
  · have hheld : rowHeld (w, text) = true := decide_eq_true ⟨hnil, hlt⟩
    have haddress : (addressDecodeBase58Check P
        (wideToUTF8 U (rowItem P U (w, text)).address)).2 = w.address := decoded_address w
    rw [decide_eq_true ⟨hnil, hlt⟩, hheld, min_int64_of_lt hlt]
    simp only [if_true, haddress]
    rfl
  · have hleft : rowHeld (w, text) = false := decide_eq_false fun h => hlt h.2
    rw [decide_eq_false fun h => hlt h.2, hleft]
    simp

/-- **The votes of the rows**, by induction on the rows: those that are held, in their order. -/
theorem foldl_addVote {table : List (Witness × Bytes)} (hdigits : ∀ row ∈ table, DigitText row.2)
    (acc : List Vote × StringMap) :
    ((table.map (rowItem P U)).foldl (VoteForm.addVote P U) acc).1 =
      acc.1 ++ (table.filter rowHeld).map voteFor := by
  induction table generalizing acc with
  | nil => simp
  | cons row table ih =>
      rw [List.map_cons, List.foldl_cons, ih fun r hr => hdigits r (List.mem_cons_of_mem _ hr),
        addVote_row acc (hdigits row List.mem_cons_self)]
      cases hheld : rowHeld row
      · rw [List.filter_cons_of_neg (by simp [hheld])]
        simp
      · rw [List.filter_cons_of_pos hheld]
        simp

/-! ## The table -/

/-- The rows of the form are those of the table. -/
theorem witness_filledForm (s : VoteForm) (witness_list : List Witness) (typed : ℕ → Bytes) :
    (filledForm P U s witness_list typed).witness_ =
      (voteTable witness_list typed).map (rowItem P U) := by
  apply List.ext_getElem
  · simp [filledForm, voteTable, VoteForm.typeVotes, VoteForm.updateWitnessList]
  · intro i hi hi'
    simp [filledForm, voteTable, VoteForm.typeVotes, VoteForm.updateWitnessList, rowItem]

/-- Leaving no row out is leaving none out that is filled in. -/
theorem filter_held_eq_iff (table : List (Witness × Bytes)) :
    (table.filter rowHeld).map voteFor = typedVotes table ↔
      ∀ row ∈ table, row.2 ≠ [] → typedNumber row.2 < 2 ^ 63 := by
  have hle : ∀ row : Witness × Bytes, rowHeld row = true → decide (row.2 ≠ []) = true := by
    intro row h
    exact decide_eq_true (of_decide_eq_true h).1
  constructor
  · intro h row hrow hfilled
    have hlength := congrArg List.length h
    unfold typedVotes at hlength
    rw [List.length_map, List.length_map] at hlength
    have heq := (List.monotone_filter_right table hle).eq_of_length hlength
    have hmem : row ∈ table.filter fun row => row.2 ≠ [] :=
      List.mem_filter.mpr ⟨hrow, decide_eq_true hfilled⟩
    rw [← heq] at hmem
    exact (of_decide_eq_true (List.mem_filter.mp hmem).2).2
  · intro h
    unfold typedVotes
    congr 1
    apply List.filter_congr
    intro row hrow
    unfold rowHeld
    rw [decide_eq_decide]
    exact ⟨fun hheld => hheld.1, fun hfilled => ⟨hfilled, h row hrow hfilled⟩⟩

/-- **Exactly when the contract is the table**: no row holds a number above 64 bits. -/
theorem tableVoted_iff {w : Wallet} {s : VoteForm} {owner : Bytes} {witness_list : List Witness}
    {typed : ℕ → Bytes} (howner : s.owner w = some owner) (hdigits : ∀ i, DigitText (typed i)) :
    TableVoted ((filledForm P U s witness_list typed).createVoteContract P U w).1
        (voteTable witness_list typed) ↔
      ∀ i < witness_list.length, typed i ≠ [] → typedNumber (typed i) < 2 ^ 63 := by
  have hfilled : (filledForm P U s witness_list typed).owner w = some owner := howner
  have htable : ∀ row ∈ voteTable witness_list typed, DigitText row.2 := by
    intro row hrow
    obtain ⟨i, hi, rfl⟩ := List.mem_mapIdx.mp hrow
    exact hdigits i
  have hvotes := foldl_addVote (P := P) (U := U) htable
    ([], (filledForm P U s witness_list typed).address_url_)
  rw [← witness_filledForm s, List.nil_append] at hvotes
  have hcontract : ((filledForm P U s witness_list typed).createVoteContract P U w).1 =
      some { owner_address := owner
             votes := ((voteTable witness_list typed).filter rowHeld).map voteFor } := by
    unfold VoteForm.createVoteContract
    rw [hfilled, ← hvotes]
  have hrows : (∀ row ∈ voteTable witness_list typed, row.2 ≠ [] → typedNumber row.2 < 2 ^ 63) ↔
      ∀ i < witness_list.length, typed i ≠ [] → typedNumber (typed i) < 2 ^ 63 := by
    constructor
    · intro h i hi
      exact h (witness_list[i], typed i) (List.mem_mapIdx.mpr ⟨i, hi, rfl⟩)
    · intro h row hrow
      obtain ⟨i, hi, rfl⟩ := List.mem_mapIdx.mp hrow
      exact h i hi
  rw [← hrows, ← filter_held_eq_iff, hcontract]
  unfold TableVoted
  constructor
  · intro h
    exact h _ rfl
  · intro h c hc
    obtain rfl := Option.some.inj hc
    exact h

end Rows

/-! ## Given tables -/

/-- The form of an address that is not logged in. -/
def offlineForm : VoteForm where
  offline_ := true
  address_ := [65]

/-- Two witnesses. -/
def twoWitnesses : List Witness := [{ address := [65, 1] }, { address := [65, 2] }]

/-- One vote for the second witness, and a text in the cell of the first. -/
def typedFirst (text : Bytes) (row : ℕ) : Bytes := if row = 0 then text else [49]

/-- `2 ^ 63` in digits. -/
def tooMany : Bytes :=
  [57, 50, 50, 51, 51, 55, 50, 48, 51, 54, 56, 53, 52, 55, 55, 53, 56, 48, 56]

/-- Three votes and one. -/
theorem tableVoted_three : TableVoted ((filledForm reference narrow offlineForm twoWitnesses
    (typedFirst [51])).createVoteContract reference narrow {}).1
    (voteTable twoWitnesses (typedFirst [51])) := by
  have hdigits : ∀ i, DigitText (typedFirst [51] i) := by
    intro i
    unfold typedFirst
    split <;> decide
  have howner : offlineForm.owner {} = some [65] := by decide
  rw [tableVoted_iff howner hdigits]
  intro i hi
  have hsmall : ∀ i < 2, typedFirst [51] i ≠ [] → typedNumber (typedFirst [51] i) < 2 ^ 63 := by
    decide
  exact hsmall i hi

/-- The first row is filled in with `2 ^ 63` votes, and the contract votes for the second
alone. -/
theorem filled_row_left_out :
    ((filledForm reference narrow offlineForm twoWitnesses
        (typedFirst tooMany)).createVoteContract reference narrow {}).1 =
      some { owner_address := [65], votes := [⟨[65, 2], 1⟩] } ∧
    (∀ i, DigitText (typedFirst tooMany i)) ∧
    ¬TableVoted ((filledForm reference narrow offlineForm twoWitnesses
        (typedFirst tooMany)).createVoteContract reference narrow {}).1
      (voteTable twoWitnesses (typedFirst tooMany)) := by
  have hcontract : ((filledForm reference narrow offlineForm twoWitnesses
      (typedFirst tooMany)).createVoteContract reference narrow {}).1 =
        some { owner_address := [65], votes := [⟨[65, 2], 1⟩] } := by decide
  refine ⟨hcontract, ?_, ?_⟩
  · intro i
    unfold typedFirst
    split <;> decide
  · intro h
    have hvotes := congrArg List.length (h _ hcontract)
    exact absurd hvotes (by decide)

end TronWallet.Theorems
