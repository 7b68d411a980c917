import Mathlib.Data.List.Basic
import Mathlib.Tactic.Common

/-!
# Codes read one symbol at a time

A `StreamCode` writes a symbol as a word and reads the first symbol of a text, or finds
that there is none, and in either case goes on behind what it has looked at.  One law ties
the directions together: a word in front of any text is read as its symbol.

`readAll` reads a text to its end.  A sequence of symbols that is written is read back as it
is (`readAll_encodeAll`).
-/

set_option autoImplicit false

namespace TronWallet.Lib

universe u v

/-- A code whose words are read from the front of a text. -/
structure StreamCode (α : Type u) (β : Type v) where
  /-- The word of a symbol. -/
  encode : α → List β
  /-- The first symbol of a text, `none` where there is none, and the text behind it. -/
  next : List β → Option α × List β
  encode_ne_nil : ∀ a, encode a ≠ []
  next_encode : ∀ a rest, next (encode a ++ rest) = (some a, rest)
  next_shorter : ∀ {text}, text ≠ [] → (next text).2.length < text.length

namespace StreamCode

variable {α : Type u} {β : Type v} (C : StreamCode α β)

/-- The words of a sequence of symbols, one after the other. -/
def encodeAll (as : List α) : List β := as.flatMap C.encode

/-- The reading of a text, with the rounds left to it. -/
def readLoop : ℕ → List β → List (Option α)
  | 0, _ => []
  | rounds + 1, text =>
    match text with
    | [] => []
    | b :: rest => (C.next (b :: rest)).1 :: readLoop rounds (C.next (b :: rest)).2

/-- What is read of a text, symbol by symbol. -/
def readAll (text : List β) : List (Option α) := C.readLoop text.length text

/-- No symbols are written as nothing. -/
@[simp] theorem encodeAll_nil : C.encodeAll [] = [] := rfl

/-- The word of the first symbol comes first. -/
@[simp] theorem encodeAll_cons (a : α) (as : List α) :
    C.encodeAll (a :: as) = C.encode a ++ C.encodeAll as := List.flatMap_cons

/-- Two sequences are written one behind the other. -/
@[simp] theorem encodeAll_append (as bs : List α) :
    C.encodeAll (as ++ bs) = C.encodeAll as ++ C.encodeAll bs := List.flatMap_append

/-! ## Reading to the end -/

/-- Any number of rounds that the text allows gives the same. -/
theorem readLoop_congr {m n : ℕ} {text : List β} (hm : text.length ≤ m) (hn : text.length ≤ n) :
    C.readLoop m text = C.readLoop n text := by
  induction m generalizing n text with
  | zero =>
      rw [List.length_eq_zero_iff.mp (Nat.le_zero.mp hm)]
      cases n <;> rfl
  | succ m ih =>
      cases text with
      | nil => cases n <;> rfl
      | cons b rest =>
          have hshort := C.next_shorter (List.cons_ne_nil b rest)
          simp only [List.length_cons] at hm hn hshort
          obtain ⟨n, rfl⟩ : ∃ k, n = k + 1 := ⟨n - 1, by omega⟩
          rw [readLoop, readLoop, ih (n := n) (by omega) (by omega)]

/-- Rounds beyond the length of the text make no difference. -/
theorem readLoop_of_le {rounds : ℕ} {text : List β} (h : text.length ≤ rounds) :
    C.readLoop rounds text = C.readAll text := C.readLoop_congr h (Nat.le_refl _)

/-- Nothing is read of no text. -/
@[simp] theorem readAll_nil : C.readAll [] = [] := rfl

/-- A text is read by its first symbol and what is behind it. -/
theorem readAll_of_ne_nil {text : List β} (h : text ≠ []) :
    C.readAll text = (C.next text).1 :: C.readAll (C.next text).2 := by
  obtain ⟨b, rest, rfl⟩ := List.exists_cons_of_ne_nil h
  have hshort := C.next_shorter h
  simp only [List.length_cons] at hshort
  rw [readAll, List.length_cons, readLoop, C.readLoop_of_le (by omega)]

/-- A word in front of a text is read first. -/
theorem readAll_encode_append (a : α) (rest : List β) :
    C.readAll (C.encode a ++ rest) = some a :: C.readAll rest := by
  rw [C.readAll_of_ne_nil (List.append_ne_nil_of_left_ne_nil (C.encode_ne_nil a) rest),
    C.next_encode]

/-- What is written is read back. -/
theorem readAll_encodeAll (as : List α) : C.readAll (C.encodeAll as) = as.map some := by
  induction as with
  | nil => rfl
  | cons a as ih => rw [encodeAll_cons, readAll_encode_append, ih, List.map_cons]

end StreamCode

end TronWallet.Lib
