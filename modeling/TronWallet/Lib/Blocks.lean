import Mathlib.Data.List.Basic
import Mathlib.Tactic.Common

/-!
# Texts taken in block by block

A text is cut into whole blocks of `n` symbols and the rest behind them.  `absorb` takes the
whole blocks into a state, one after the other, and leaves the rest alone.  What it does to
two texts, one behind the other, is what it does to the first and then to the second with
the rest of the first in front (`absorb_append`).
-/

set_option autoImplicit false

namespace TronWallet.Lib.Blocks

variable {α σ : Type*} {n : ℕ}

/-- The whole blocks of a text. -/
def blocks (n : ℕ) (m : List α) : List (List α) :=
  (List.range (m.length / n)).map fun k => (m.drop (k * n)).take n

/-- What is left of a text behind its whole blocks. -/
def rest (n : ℕ) (m : List α) : List α := m.drop (m.length / n * n)

/-- Takes in the whole blocks of a text. -/
def absorb (step : σ → List α → σ) (n : ℕ) (s : σ) (m : List α) : σ := (blocks n m).foldl step s

/-- Pieces of one length, put together. -/
theorem length_flatMap_range {f : ℕ → List α} (hf : ∀ i, (f i).length = n) (k : ℕ) :
    ((List.range k).flatMap f).length = k * n := by
  induction k with
  | zero => simp
  | succ k ih => simp [List.range_succ, ih, hf, Nat.succ_mul]

/-! ## Short texts, and texts with a block in front -/

/-- A text shorter than a block has none. -/
theorem blocks_of_lt {m : List α} (h : m.length < n) : blocks n m = [] := by
  simp [blocks, Nat.div_eq_of_lt h]

/-- A text shorter than a block is its own rest. -/
@[simp] theorem rest_of_lt {m : List α} (h : m.length < n) : rest n m = m := by
  simp [rest, Nat.div_eq_of_lt h]

/-- The rest is as long as the remainder of the length. -/
theorem length_rest (n : ℕ) (m : List α) : (rest n m).length = m.length % n := by
  have h := Nat.div_add_mod m.length n
  rw [Nat.mul_comm] at h
  simp only [rest, List.length_drop]
  omega

/-- The rest is shorter than a block. -/
theorem length_rest_lt (hn : 0 < n) (m : List α) : (rest n m).length < n := by
  simpa [length_rest] using Nat.mod_lt m.length hn

/-- A block in front is one block more. -/
theorem length_div_append (hn : 0 < n) {b : List α} (hb : b.length = n) (m : List α) :
    (b ++ m).length / n = m.length / n + 1 := by
  rw [List.length_append, hb, Nat.add_div_left _ hn]

/-- A block in front is the first of the blocks. -/
theorem blocks_append (hn : 0 < n) {b : List α} (hb : b.length = n) (m : List α) :
    blocks n (b ++ m) = b :: blocks n m := by
  rw [blocks, length_div_append hn hb, List.range_succ_eq_map]
  simp only [List.map_cons, List.map_map, Nat.zero_mul, List.drop_zero, blocks]
  congr 1
  · simp [← hb]
  · apply List.map_congr_left
    intro k _
    simp only [Function.comp_apply, Nat.succ_mul]
    rw [List.drop_append, List.drop_eq_nil_of_le (by omega), hb, Nat.add_sub_cancel_right,
      List.nil_append]

/-- A block in front does not change the rest. -/
theorem rest_append (hn : 0 < n) {b : List α} (hb : b.length = n) (m : List α) :
    rest n (b ++ m) = rest n m := by
  rw [rest, length_div_append hn hb, Nat.succ_mul, List.drop_append,
    List.drop_eq_nil_of_le (by omega), hb, Nat.add_sub_cancel_right, List.nil_append, rest]

/-- A property of texts holds of all when it holds of the short ones and is kept by a block
in front. -/
theorem block_induction (hn : 0 < n) {motive : List α → Prop}
    (short : ∀ m, m.length < n → motive m)
    (block : ∀ b m, b.length = n → motive m → motive (b ++ m)) (m : List α) : motive m := by
  induction hk : m.length using Nat.strongRecOn generalizing m with
  | _ k ih =>
    subst hk
    by_cases h : m.length < n
    · exact short m h
    · have hlength : (m.take n).length = n := by
        simp only [List.length_take]
        omega
      have hshorter : (m.drop n).length < m.length := by
        simp only [List.length_drop]
        omega
      have hrest := block (m.take n) (m.drop n) hlength (ih _ hshorter _ rfl)
      simpa using hrest

/-! ## Taking in the blocks -/

variable (step : σ → List α → σ)

/-- Without a whole block nothing is absorbed. -/
@[simp] theorem absorb_of_lt {m : List α} (h : m.length < n) (s : σ) : absorb step n s m = s := by
  simp [absorb, blocks_of_lt h]

/-- A block in front is absorbed first. -/
theorem absorb_block (hn : 0 < n) {b : List α} (hb : b.length = n) (s : σ) (m : List α) :
    absorb step n s (b ++ m) = absorb step n (step s b) m := by
  simp [absorb, blocks_append hn hb]

/-- **Two texts, one behind the other.** -/
theorem absorb_append (hn : 0 < n) (s : σ) (m m' : List α) :
    absorb step n s (m ++ m') = absorb step n (absorb step n s m) (rest n m ++ m') := by
  induction m using block_induction hn generalizing s with
  | short m h => simp [h]
  | block b m hb ih =>
    rw [List.append_assoc, absorb_block step hn hb, ih, absorb_block step hn hb,
      rest_append hn hb]

/-- Of a text that is extended, only its rest counts for the new rest. -/
theorem rest_append_rest (hn : 0 < n) (m m' : List α) :
    rest n (m ++ m') = rest n (rest n m ++ m') := by
  induction m using block_induction hn with
  | short m h => rw [rest_of_lt h]
  | block b m hb ih => rw [List.append_assoc, rest_append hn hb, ih, rest_append hn hb]

/-- The last block of a text of whole blocks is the last one taken in. -/
theorem absorb_last (hn : 0 < n) {m b : List α} (h : (m ++ b).length % n = 0) (hb : b ≠ [])
    (hlength : b.length ≤ n) (s : σ) :
    absorb step n s (m ++ b) = step (absorb step n s m) (rest n m ++ b) := by
  have hrest := length_rest n m
  have hlt := length_rest_lt hn m
  have hpos : 0 < b.length := List.length_pos_iff.mpr hb
  have hsum : (rest n m ++ b).length = n := by
    rw [List.length_append, hrest]
    have hmod : (m.length % n + b.length) % n = 0 := by
      rw [List.length_append] at h
      rwa [Nat.mod_add_mod]
    rcases Nat.lt_or_ge (m.length % n + b.length) n with hless | hmore
    · rw [Nat.mod_eq_of_lt hless] at hmod
      omega
    · rw [Nat.mod_eq_sub_mod hmore, Nat.mod_eq_of_lt (by omega)] at hmod
      omega
  have hblock := absorb_block step hn hsum (absorb step n s m) []
  rw [absorb_append step hn, ← List.append_nil (rest n m ++ b), hblock,
    absorb_of_lt step (by simpa using hn), List.append_nil]

end TronWallet.Lib.Blocks
