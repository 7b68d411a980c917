import TronWallet.Lib.KeccakF
import TronWallet.Model.Sha3
import Mathlib.Data.Fintype.Basic
import Mathlib.Tactic.FinCases

/-!
# The permutation in place

The lanes of the implementation are the rows of a state, and each of its loops writes the
lanes the step of the permutation puts there.  The loop for `rho` and `pi` goes along the
walk through the square: what it has left behind after `n` steps is `carried n`, and what
it carries is the lane it stands on (`foldl_carry`).  The tables it goes by are the places
and the offsets of the walk, and the constants of the last step come from the shift
register.
-/

set_option autoImplicit false

namespace TronWallet.Analysis.Keccak

open TronWallet.Lib TronWallet.Lib.KeccakF TronWallet.Model
open TronWallet.Model.Keccak (rol columns addColumns carry rhoPi rowLanes chiRow chiStep lanes
  keccakf)

variable (A : State)

/-! ## Lanes in rows -/

/-- The lanes of a state row by row. -/
theorem getD_rows (x y : Fin 5) : (rows A).getD (x + 5 * y) 0 = A x y := by
  fin_cases x <;> fin_cases y <;> rfl

/-- A lane that is replaced. -/
theorem set_rows (x y : Fin 5) (v : Lane) :
    (rows A).set (x + 5 * y) v = rows fun x' y' => if x' = x ∧ y' = y then v else A x' y' := by
  fin_cases x <;> fin_cases y <;> rfl

/-- The macro is a rotation. -/
theorem rol_eq_rotateLeft (x : Lane) {s : ℕ} (hs : s < 64) : rol x s = x.rotateLeft s := by
  rw [rol, BitVec.rotateLeft, Nat.mod_eq_of_lt hs, BitVec.rotateLeftAux]

/-! ## Theta -/

/-- The loop that adds up the columns. -/
theorem columns_rows (b : Fin 5 → Lane) :
    columns (rows A) (List.ofFn b) = List.ofFn fun x => 0 ^^^ A x 0 ^^^ A x 1 ^^^ A x 2 ^^^
      A x 3 ^^^ A x 4 := by rfl

/-- The loop that adds the neighbouring columns to each lane. -/
theorem addColumns_rows (b : Fin 5 → Lane) :
    addColumns (List.ofFn b) (rows A) =
      rows fun x y => A x y ^^^ (b (x + 4) ^^^ rol (b (x + 1)) 1) := by rfl

/-- The two loops are the step theta. -/
theorem addColumns_columns (b : Fin 5 → Lane) :
    addColumns (columns (rows A) (List.ofFn b)) (rows A) = rows (theta A) := by
  rw [columns_rows, addColumns_rows]
  congr 1
  funext x y
  have hbefore : x + 4 = x - 1 := by
    revert x
    decide
  simp [theta, parity, hbefore, rol_eq_rotateLeft, BitVec.xor_assoc]

/-! ## Rho and pi -/

/-- The table of positions follows the walk over the state. -/
theorem pi_getD {t : ℕ} (ht : t < 24) :
    Model.Keccak.pi.getD t 0 = (walk (t + 1)).1 + 5 * (walk (t + 1)).2 := by
  revert t
  decide

/-- The table of offsets holds the triangular numbers. -/
theorem rho_getD {t : ℕ} (ht : t < 24) :
    Model.Keccak.rho.getD t 0 = (t + 1) * (t + 2) / 2 % 64 := by
  revert t
  decide

/-- The walk does not come back to a lane, and is never at the origin. -/
theorem walk_ne {t n : ℕ} (hn : n < 25) (ht : t < n) (hpos : 0 < t) : walk t ≠ walk n := by
  have h : ∀ n < 25, ∀ t < n, 0 < t → walk t ≠ walk n := by decide
  exact h n hn t ht hpos

/-- The walk does not come to the lane it leaves out. -/
theorem walk_ne_zero {t : ℕ} (ht : t < 25) : walk t ≠ (0, 0) := by
  revert t
  decide

/-- The state after `n` steps of the walk. -/
def carried (n : ℕ) : State := fun x y =>
  ((List.range n).find? fun t => walk (t + 1) = (x, y)).elim (A x y) fun t =>
    (A (walk t).1 (walk t).2).rotateLeft ((t + 1) * (t + 2) / 2)

/-- A lane the walk has not come to is as it was. -/
theorem carried_of_not_visited {n : ℕ} {x y : Fin 5} (h : ∀ t < n, walk (t + 1) ≠ (x, y)) :
    carried A n x y = A x y := by
  have hnone : ((List.range n).find? fun t => walk (t + 1) = (x, y)) = none := by
    simpa [List.find?_eq_none] using h
  simp [carried, hnone]

/-- A lane the walk has come to holds the one before it. -/
theorem carried_of_visited {n t : ℕ} {x y : Fin 5} (hn : n < 25) (ht : t < n)
    (h : walk (t + 1) = (x, y)) :
    carried A n x y = (A (walk t).1 (walk t).2).rotateLeft ((t + 1) * (t + 2) / 2) := by
  have hfind : ((List.range n).find? fun t => walk (t + 1) = (x, y)) = some t := by
    simp only [List.find?_range_eq_some, decide_eq_true_eq, List.mem_range, Bool.not_eq_true',
      decide_eq_false_iff_not]
    refine ⟨h, ht, fun j hj => ?_⟩
    rw [← h]
    exact walk_ne (by omega) (by omega) (by omega)
  simp [carried, hfind]

/-- What has been carried one step further. -/
theorem carried_succ {n : ℕ} (hn : n < 24) :
    carried A (n + 1) = fun x y => if x = (walk (n + 1)).1 ∧ y = (walk (n + 1)).2 then
      (A (walk n).1 (walk n).2).rotateLeft ((n + 1) * (n + 2) / 2) else carried A n x y := by
  funext x y
  split_ifs with h
  · exact carried_of_visited A (by omega) (by omega) (by rw [h.1, h.2])
  · by_cases hvisited : ∃ t < n, walk (t + 1) = (x, y)
    · obtain ⟨t, ht, hw⟩ := hvisited
      rw [carried_of_visited A (by omega) (by omega) hw,
        carried_of_visited A (by omega) ht hw]
    · push Not at hvisited
      rw [carried_of_not_visited A hvisited, carried_of_not_visited A]
      intro t ht hw
      rcases Nat.lt_succ_iff_lt_or_eq.mp ht with hlt | rfl
      · exact hvisited t hlt hw
      · rw [hw] at h
        exact h ⟨rfl, rfl⟩

/-- The loop has carried each lane to the next one of the walk, by induction on the rounds. -/
theorem foldl_carry (b : List Lane) {n : ℕ} (hn : n < 25) (hb : b ≠ []) :
    ∃ b', b'.length = b.length ∧
      (List.range n).foldl carry (rows A, b, A 1 0) =
        (rows (carried A n), b', A (walk n).1 (walk n).2) := by
  induction n with
  | zero => exact ⟨b, rfl, rfl⟩
  | succ n ih =>
    obtain ⟨b', hlength, hfold⟩ := ih (by omega)
    have hpos : 0 < b'.length := by
      rw [hlength]
      exact List.length_pos_iff.mpr hb
    have hnext : carried A n (walk (n + 1)).1 (walk (n + 1)).2 =
        A (walk (n + 1)).1 (walk (n + 1)).2 := by
      apply carried_of_not_visited
      intro t ht
      exact walk_ne (by omega) (by omega) (by omega)
    have hrol := rol_eq_rotateLeft (A (walk n).1 (walk n).2)
      (Nat.mod_lt ((n + 1) * (n + 2) / 2) (show 0 < 64 by decide))
    rw [BitVec.rotateLeft_mod_eq_rotateLeft] at hrol
    refine ⟨b'.set 0 (A (walk (n + 1)).1 (walk (n + 1)).2), by simpa using hlength, ?_⟩
    rw [List.range_succ, List.foldl_append, hfold, List.foldl_cons, List.foldl_nil, carry]
    simp only [pi_getD (show n < 24 by omega), rho_getD (show n < 24 by omega), getD_rows,
      set_rows, hnext, hrol, Prod.mk.injEq]
    refine ⟨?_, trivial, ?_⟩
    · rw [carried_succ A (by omega)]
    · simp [hpos]

/-- Where the lane that comes to a place has been, and how far it has been turned. -/
theorem exists_walk {x y : Fin 5} (h : (x, y) ≠ (0, 0)) :
    ∃ t < 24, walk (t + 1) = (x, y) ∧ walk t = (x + 3 * y, x) ∧
      offset (x + 3 * y) x = (t + 1) * (t + 2) / 2 := by
  revert x y
  decide

/-- **The walk does what the two steps do.** -/
theorem carried_eq : carried A 24 = pi (rho A) := by
  funext x y
  by_cases h : (x, y) = (0, 0)
  · obtain ⟨rfl, rfl⟩ := Prod.mk.inj h
    have hoffset : offset 0 0 = 0 := by decide
    rw [carried_of_not_visited A fun t ht => walk_ne_zero (by omega)]
    have hout : A 0 0 >>> 64 = 0 := BitVec.ushiftRight_eq_zero (le_refl 64)
    simp [pi, rho, hoffset, BitVec.rotateLeft, BitVec.rotateLeftAux, hout]
  · obtain ⟨t, ht, hw, hbefore, hoffset⟩ := exists_walk h
    rw [carried_of_visited A (by omega) ht hw, hbefore, pi, rho, hoffset]

/-- The loop is the steps rho and pi. -/
theorem rhoPi_rows (b : List Lane) (hb : b ≠ []) :
    ∃ b' t, b'.length = b.length ∧ rhoPi (rows A) b = (rows (pi (rho A)), b', t) := by
  obtain ⟨b', hlength, hfold⟩ := foldl_carry A b (show 24 < 25 by omega) hb
  rw [carried_eq] at hfold
  exact ⟨b', _, hlength, hfold⟩

/-! ## Chi -/

/-- The loop that copies a row. -/
theorem rowLanes_rows (y : Fin 5) (b : Fin 5 → Lane) :
    rowLanes (rows A) (5 * y) (List.ofFn b) = List.ofFn fun x => A x y := by
  fin_cases y <;> rfl

/-- The loop that combines the lanes of a row. -/
theorem chiRow_rows (y : Fin 5) (b : Fin 5 → Lane) :
    chiRow (List.ofFn b) (5 * y) (rows A) =
      rows fun x y' => if y' = y then b x ^^^ (~~~b (x + 1) &&& b (x + 2)) else A x y' := by
  fin_cases y <;> rfl

/-- The state with one row done. -/
def rowDone (y : Fin 5) (A : State) : State :=
  fun x y' => if y' = y then KeccakF.chi A x y else A x y'

/-- The two loops change one row and leave the others. -/
theorem chiStep_rows (y : Fin 5) (b : Fin 5 → Lane) :
    chiStep (5 * y) (rows A, List.ofFn b) = (rows (rowDone y A), List.ofFn fun x => A x y) := by
  rw [chiStep]
  simp only [rowLanes_rows, chiRow_rows]
  rfl

/-- **Row after row.** The row that is done next is still as it was. -/
theorem chi_rows (b : Fin 5 → Lane) :
    Model.Keccak.chi (rows A, List.ofFn b) =
      (rows (KeccakF.chi A), List.ofFn fun x => A x 4) := by
  have hrows : Model.Keccak.chi (rows A, List.ofFn b) =
      chiStep (5 * (4 : Fin 5)) (chiStep (5 * (3 : Fin 5)) (chiStep (5 * (2 : Fin 5))
        (chiStep (5 * (1 : Fin 5)) (chiStep (5 * (0 : Fin 5)) (rows A, List.ofFn b))))) := by rfl
  rw [hrows]
  simp only [chiStep_rows, Prod.mk.injEq]
  constructor
  · congr 1
    funext x y
    fin_cases y <;> simp [rowDone, KeccakF.chi]
  · simp [rowDone]

/-! ## The rounds -/

/-- The table of round constants is the one that is computed. -/
theorem RC_getD {i : ℕ} (hi : i < 24) : Model.Keccak.RC.getD i 0 = roundConstant i := by
  revert i
  decide

/-- The constant is added to the first lane. -/
theorem modify_rows (c : Lane) :
    (rows A).modify 0 (· ^^^ c) =
      rows fun x y => if x = 0 ∧ y = 0 then A x y ^^^ c else A x y := by rfl

/-- A list of five lanes is a row. -/
theorem eq_ofFn {b : List Lane} (hb : b.length = 5) : ∃ c : Fin 5 → Lane, b = List.ofFn c := by
  obtain ⟨n, c, rfl⟩ : ∃ n, ∃ c : Fin n → Lane, b = List.ofFn c :=
    ⟨b.length, b.get, (List.ofFn_get b).symm⟩
  rw [List.length_ofFn] at hb
  subst hb
  exact ⟨c, rfl⟩

/-- A round of the code is a round of the permutation. -/
theorem round_rows {b : List Lane} (hb : b.length = 5) {i : ℕ} (hi : i < 24) :
    ∃ b', b'.length = 5 ∧
      Model.Keccak.round (rows A, b) i = (rows (KeccakF.round i A), b') := by
  obtain ⟨c, rfl⟩ := eq_ofFn hb
  have hcolumns : columns (rows A) (List.ofFn c) ≠ [] := by
    rw [columns_rows]
    simp
  obtain ⟨b', t, hlength, hrhoPi⟩ := rhoPi_rows (theta A) _ hcolumns
  have hb' : b'.length = 5 := by
    rw [hlength, columns_rows]
    simp
  obtain ⟨c', rfl⟩ := eq_ofFn hb'
  refine ⟨List.ofFn fun x => pi (rho (theta A)) x 4, List.length_ofFn, ?_⟩
  rw [Model.Keccak.round]
  simp only [addColumns_columns, hrhoPi, chi_rows, modify_rows, RC_getD hi]
  rfl

/-- The rounds of the code are the rounds of the permutation. -/
theorem foldl_round {n : ℕ} (hn : n ≤ 24) :
    ∃ b, b.length = 5 ∧
      (List.range n).foldl Model.Keccak.round (rows A, List.replicate 5 0) =
        (rows ((List.range n).foldl (fun A i => KeccakF.round i A) A), b) := by
  induction n with
  | zero => exact ⟨_, by simp, rfl⟩
  | succ n ih =>
    obtain ⟨b, hb, hfold⟩ := ih (by omega)
    simp only [List.range_succ, List.foldl_append, List.foldl_cons, List.foldl_nil, hfold]
    exact round_rows _ hb (by omega)

/-! ## States of bytes -/

/-- The lanes of a state of 200 bytes. -/
theorem lanes_eq_rows {state : Bytes} (h : state.length = 200) :
    lanes state = rows (ofBytes state) := by
  have hlane : ∀ i < 25, cropped state (8 * i) 8 = (state.drop (8 * i)).take 8 := by
    intro i hi
    rw [cropped, if_pos (by omega)]
  have hlanes : lanes state = (List.range 25).map fun i =>
      Words.ofLE 64 ((state.drop (8 * i)).take 8) := by
    apply List.map_congr_left
    intro i hi
    rw [hlane i (List.mem_range.mp hi)]
  rw [hlanes]
  rfl

/-- **The permutation of the implementation is the one that is meant.** -/
theorem keccakf_eq_onBytes {state : Bytes} (h : state.length = 200) :
    keccakf state = onBytes state := by
  obtain ⟨b, -, hfold⟩ := foldl_round (ofBytes state) (le_refl 24)
  rw [keccakf, lanes_eq_rows h, hfold]
  rfl

end TronWallet.Analysis.Keccak
