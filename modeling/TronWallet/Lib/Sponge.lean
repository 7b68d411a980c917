import TronWallet.Lib.Blocks
import Mathlib.Logic.Function.Iterate

/-!
# Sponges over bytes

A sponge holds a state of bytes and a transformation `f` of it.  Of the state the first
`rate` bytes are open to the outside: a text, padded to whole blocks of that size, is added
to them block by block, with `f` after each, and the answer is taken from them, again with
`f` after each block.

`absorbed_padded` parts the last block from the blocks of the text itself, and `squeezed`
comes block by block (`squeezed_of_le`), which is how implementations go about it.
-/

set_option autoImplicit false

namespace TronWallet.Lib.Sponge

open Blocks

variable (f : List UInt8 → List UInt8) (rate : ℕ)

/-- A block added to the front of a state. -/
def mixInto (s b : List UInt8) : List UInt8 := s.mapIdx fun i x => x ^^^ b.getD i 0

/-- What the padding adds to a text: the first byte marks the end of the text and its kind,
the last one the end of the block. -/
def frame (first last : UInt8) (n : ℕ) : List UInt8 :=
  (List.range n).map fun i => (if i = 0 then first else 0) ^^^ (if i + 1 = n then last else 0)

/-- A text padded to whole blocks. -/
def padded (first last : UInt8) (m : List UInt8) : List UInt8 :=
  m ++ frame first last (rate - m.length % rate)

/-- The state after the whole blocks of a text. -/
def absorbed (s m : List UInt8) : List UInt8 := absorb (fun s b => f (mixInto s b)) rate s m

/-- The first `n` bytes of the answer. -/
def squeezed (s : List UInt8) (n : ℕ) : List UInt8 :=
  (List.range n).map fun i => (f^[i / rate] s).getD (i % rate) 0

/-- The sponge: what it answers to a text. -/
def sponge (first last : UInt8) (s m : List UInt8) (n : ℕ) : List UInt8 :=
  squeezed f rate (absorbed f rate s (padded rate first last m)) n

variable {f rate}

/-- Mixing in bytes keeps the length of the state. -/
@[simp] theorem length_mixInto (s b : List UInt8) : (mixInto s b).length = s.length := by
  simp [mixInto]

/-- A frame is as long as what it fills. -/
@[simp] theorem length_frame (first last : UInt8) (n : ℕ) : (frame first last n).length = n := by
  simp [frame]

/-- The bytes of a frame: the first, the last, and zeros in between. -/
theorem getD_frame {first last : UInt8} {n i : ℕ} (hi : i < n) :
    (frame first last n).getD i 0 =
      (if i = 0 then first else 0) ^^^ (if i + 1 = n then last else 0) := by
  simp [frame, hi]

/-- A text that has been padded is a whole number of blocks. -/
theorem length_padded_mod (hrate : 0 < rate) (first last : UInt8) (m : List UInt8) :
    (padded rate first last m).length % rate = 0 := by
  have hlt := Nat.mod_lt m.length hrate
  have hsplit := Nat.div_add_mod m.length rate
  have hsum : m.length + (rate - m.length % rate) = rate * (m.length / rate + 1) := by
    rw [Nat.mul_add, Nat.mul_one]
    omega
  simp [padded, hsum]

/-- The padding and what is left of the text make up the last block. -/
theorem absorbed_padded (hrate : 0 < rate) (first last : UInt8) (s m : List UInt8) :
    absorbed f rate s (padded rate first last m) =
      f (mixInto (absorbed f rate s m)
        (rest rate m ++ frame first last (rate - m.length % rate))) := by
  have hlt := Nat.mod_lt m.length hrate
  have hne : frame first last (rate - m.length % rate) ≠ [] := by
    rw [← List.length_pos_iff, length_frame]
    omega
  apply absorb_last _ hrate (length_padded_mod hrate first last m) hne
  rw [length_frame]
  omega

/-! ## The answer -/

/-- An output shorter than the rate is the beginning of the state. -/
theorem squeezed_of_lt {s : List UInt8} {n : ℕ} (hn : n < rate) (hs : rate ≤ s.length) :
    squeezed f rate s n = s.take n := by
  apply List.ext_getElem
  · simp only [squeezed, List.length_map, List.length_range, List.length_take]
    omega
  · intro i hi hi'
    simp only [squeezed, List.length_map, List.length_range] at hi
    have hdiv : i / rate = 0 := Nat.div_eq_of_lt (by omega)
    have hmod : i % rate = i := Nat.mod_eq_of_lt (by omega)
    simp [squeezed, hdiv, hmod, show i < s.length by omega]

/-- The answer comes block by block. -/
theorem squeezed_of_le {s : List UInt8} {n : ℕ} (hrate : 0 < rate) (hn : rate ≤ n)
    (hs : rate ≤ s.length) :
    squeezed f rate s n = s.take rate ++ squeezed f rate (f s) (n - rate) := by
  obtain ⟨n, rfl⟩ := Nat.exists_eq_add_of_le hn
  have hfront : squeezed f rate s (rate + n) =
      (List.range rate).map (fun i => s.getD i 0) ++ squeezed f rate (f s) n := by
    simp only [squeezed, List.range_add, List.map_append, List.map_map]
    congr 1
    · apply List.map_congr_left
      intro i hi
      have hlt := List.mem_range.mp hi
      simp [Nat.div_eq_of_lt hlt, Nat.mod_eq_of_lt hlt]
    · apply List.map_congr_left
      intro i _
      simp [Nat.add_div_left _ hrate]
  rw [hfront, Nat.add_sub_cancel_left]
  congr 1
  apply List.ext_getElem
  · simp only [List.length_map, List.length_range, List.length_take]
    omega
  · intro i hi _
    simp only [List.length_map, List.length_range] at hi
    simp [show i < s.length by omega]

end TronWallet.Lib.Sponge
