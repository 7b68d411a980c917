import Mathlib.Data.List.TakeWhile
import Mathlib.Data.Nat.Digits.Lemmas

/-!
# Numerals from one base to another

A numeral is a list of digits, the most significant first.  `recode` writes the number a
numeral stands for in another base, and keeps the zeros the numeral begins with, which
the number does not know about: there are as many before as after.  Since they are kept,
recoding back gives the numeral itself (`recode_recode`).

`pow_le_pow_of_ratio` tells how many digits are enough in the other base, when a ratio of
the two lengths is known for one power.
-/

set_option autoImplicit false

namespace TronWallet.Lib.Radix

/-- The number of zeros a numeral begins with. -/
def leadingZeros (ds : List ℕ) : ℕ := (ds.takeWhile (· = 0)).length

/-- The numeral in another base, with the same zeros in front. -/
def recode (base base' : ℕ) (ds : List ℕ) : List ℕ :=
  List.replicate (leadingZeros ds) 0 ++ (Nat.digits base' (Nat.ofDigits base ds.reverse)).reverse

/-- The zeros in front, and the rest. -/
theorem replicate_append_dropWhile (ds : List ℕ) :
    List.replicate (leadingZeros ds) 0 ++ ds.dropWhile (· = 0) = ds := by
  have hzeros : ds.takeWhile (· = 0) = List.replicate (leadingZeros ds) 0 :=
    List.eq_replicate_of_mem fun d hd => by simpa using List.mem_takeWhile_imp hd
  rw [← hzeros, List.takeWhile_append_dropWhile]

/-- The digits of the number are the numeral without the zeros in front. -/
theorem digits_ofDigits_reverse {base : ℕ} (hbase : 1 < base) {ds : List ℕ}
    (h : ∀ d ∈ ds, d < base) :
    (Nat.digits base (Nat.ofDigits base ds.reverse)).reverse = ds.dropWhile (· = 0) := by
  induction ds with
  | nil => simp
  | cons d ds ih =>
      by_cases hd : d = 0
      · subst hd
        rw [Nat.ofDigits_reverse_zero_cons, ih fun x hx => h x (List.mem_cons_of_mem _ hx)]
        simp
      · rw [List.dropWhile_cons_of_neg (by simpa using hd), Nat.digits_ofDigits base hbase,
          List.reverse_reverse]
        · exact fun x hx => h x (List.mem_reverse.mp hx)
        · intro hne
          simpa using hd

/-- A numeral of digits begins with a digit that is not zero. -/
theorem leadingZeros_recode {base base' : ℕ} (hbase' : 1 < base') (ds : List ℕ) :
    leadingZeros (recode base base' ds) = leadingZeros ds := by
  have hlt : ∀ d ∈ (Nat.digits base' (Nat.ofDigits base ds.reverse)).reverse, d < base' :=
    fun d hd => Nat.digits_lt_base hbase' (List.mem_reverse.mp hd)
  have hdigits := digits_ofDigits_reverse hbase' hlt
  rw [List.reverse_reverse, Nat.ofDigits_digits] at hdigits
  have hnone :
      (Nat.digits base' (Nat.ofDigits base ds.reverse)).reverse.takeWhile (· = 0) = [] := by
    have hsplit := List.takeWhile_append_dropWhile (p := fun d => decide (d = 0))
      (l := (Nat.digits base' (Nat.ofDigits base ds.reverse)).reverse)
    rw [← hdigits] at hsplit
    exact List.append_left_eq_self.mp hsplit
  unfold recode
  rw [leadingZeros, List.takeWhile_append_of_pos (by simp), hnone, List.append_nil,
    List.length_replicate]

/-- The number a recoded numeral stands for. -/
theorem ofDigits_recode (base base' : ℕ) (ds : List ℕ) :
    Nat.ofDigits base' (recode base base' ds).reverse = Nat.ofDigits base ds.reverse := by
  unfold recode
  rw [List.reverse_append, List.reverse_reverse, List.reverse_replicate,
    Nat.ofDigits_append_replicate_zero, Nat.ofDigits_digits]

/-- **Recoding back gives the numeral.** -/
theorem recode_recode {base base' : ℕ} (hbase : 1 < base) (hbase' : 1 < base') {ds : List ℕ}
    (h : ∀ d ∈ ds, d < base) : recode base' base (recode base base' ds) = ds := by
  rw [recode, leadingZeros_recode hbase', ofDigits_recode, digits_ofDigits_reverse hbase h,
    replicate_append_dropWhile]

/-- Recoding gives digits of the new base. -/
theorem recode_lt {base base' : ℕ} (hbase' : 1 < base') {ds : List ℕ} :
    ∀ d ∈ recode base base' ds, d < base' := by
  intro d hd
  rcases List.mem_append.mp hd with hd | hd
  · rw [List.eq_of_mem_replicate hd]
    omega
  · exact Nat.digits_lt_base hbase' (List.mem_reverse.mp hd)

/-- A numeral of `n` digits is below the `n`-th power of the base. -/
theorem ofDigits_reverse_lt {base : ℕ} (hbase : 1 < base) {ds : List ℕ}
    (h : ∀ d ∈ ds, d < base) : Nat.ofDigits base ds.reverse < base ^ ds.length := by
  rw [← List.length_reverse]
  exact Nat.ofDigits_lt_base_pow_length hbase fun d hd => h d (List.mem_reverse.mp hd)

/-- **Enough digits**: when `p` digits in base `a` fit into `q` digits in base `b`, then `n`
digits fit into `n * q / p + 1`. -/
theorem pow_le_pow_of_ratio {a b p q : ℕ} (hp : p ≠ 0) (hb : 0 < b) (h : a ^ p ≤ b ^ q) (n : ℕ) :
    a ^ n ≤ b ^ (n * q / p + 1) := by
  rw [← Nat.pow_le_pow_iff_left hp]
  have hlen : q * n ≤ (n * q / p + 1) * p := by
    have hdiv := Nat.div_add_mod (n * q) p
    have hmod := Nat.mod_lt (n * q) (Nat.pos_of_ne_zero hp)
    calc q * n = p * (n * q / p) + n * q % p := by rw [hdiv, Nat.mul_comm]
      _ ≤ p * (n * q / p) + p := by omega
      _ = (n * q / p + 1) * p := by ring
  calc (a ^ n) ^ p = (a ^ p) ^ n := by rw [← pow_mul, ← pow_mul, Nat.mul_comm]
    _ ≤ (b ^ q) ^ n := Nat.pow_le_pow_left h n
    _ = b ^ (q * n) := (pow_mul b q n).symm
    _ ≤ b ^ ((n * q / p + 1) * p) := Nat.pow_le_pow_right hb hlen
    _ = (b ^ (n * q / p + 1)) ^ p := pow_mul b _ p

end TronWallet.Lib.Radix
