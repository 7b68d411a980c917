import TronWallet.Analysis.Accounts
import TronWallet.Reference.Platform

/-!
# The keys `MakeKey` returns

`MakeKey` hashes a random secret until the address of its key pair begins with a zero byte.
`KeyPair` leaves the public key and the address of an invalid secret zero, so such a
secret ends the loop as well: unlike `KeyPair::create`, `MakeKey` has no test for it.

The secrets the loop goes through are a sequence, `secretAt`, and `makeKey_eq_ok_iff`
says which of them is returned.
-/

set_option autoImplicit false

namespace TronWallet.Theorems

open TronWallet.Lib TronWallet.Model

variable (P : Platform)

/-- The secret `MakeKey` has after some hashing steps. -/
def secretAt (seed : Secret) : ℕ → Secret
  | 0 => seed
  | n + 1 => P.sha3 (secretAt seed n).m_data

/-- The loop ends at a secret: the address of its key pair begins with a zero byte. -/
def EndsLoop (s : Secret) : Prop := (P.keyPair s).m_address.byte 0 = 0

/-- **A usable key pair**: its secret has a public key, its address is the one of that
public key, and the address begins with a zero byte. -/
def Usable (k : KeyPair) : Prop :=
  P.toPublic k.m_secret ≠ 0 ∧ k.m_address = P.toAddress (P.toPublic k.m_secret) ∧
    k.m_address.byte 0 = 0

/-! ## What the loop does -/

/-- A secret without a public key gets the zero address. -/
theorem keyPair_m_address_of_null {s : Secret} (h : P.toPublic s = 0) :
    (P.keyPair s).m_address = 0 := by
  simp [Platform.keyPair, h]

/-- The address of a valid secret is that of its public key. -/
theorem keyPair_m_address_of_valid {s : Secret} (h : P.toPublic s ≠ 0) :
    (P.keyPair s).m_address = P.toAddress (P.toPublic s) := by
  simp [Platform.keyPair, h]

/-- The null address begins with a zero byte. -/
theorem endsLoop_of_null {s : Secret} (h : P.toPublic s = 0) : EndsLoop P s := by
  rw [EndsLoop, keyPair_m_address_of_null P h]
  decide

/-- A key pair the loop ends at is usable exactly when its secret is valid. -/
theorem usable_keyPair_iff {s : Secret} (h : EndsLoop P s) :
    Usable P (P.keyPair s) ↔ P.toPublic s ≠ 0 := by
  constructor
  · intro hu
    exact hu.1
  · intro hs
    exact ⟨hs, keyPair_m_address_of_valid P hs, h⟩

/-- One turn of the loop. -/
theorem makeKeyLoop_succ (rounds : ℕ) (s : Secret) :
    Wallet.makeKeyLoop P (rounds + 1) (P.keyPair s) =
      if (P.keyPair s).m_address.byte 0 = 0 then .ok (P.keyPair s)
      else Wallet.makeKeyLoop P rounds (P.keyPair (P.sha3 s.m_data)) := by
  rw [Wallet.makeKeyLoop, Platform.keyPair_m_secret]

/-- **The loop returns the first secret it can end at**, when the rounds left reach it. -/
theorem makeKeyLoop_eq_ok_iff (seed : Secret) (rounds start : ℕ) (k : KeyPair) :
    Wallet.makeKeyLoop P rounds (P.keyPair (secretAt P seed start)) = .ok k ↔
      ∃ n, n ≤ rounds ∧ k = P.keyPair (secretAt P seed (start + n)) ∧
        EndsLoop P (secretAt P seed (start + n)) ∧
        ∀ m < n, ¬ EndsLoop P (secretAt P seed (start + m)) := by
  induction rounds generalizing start with
  | zero =>
      by_cases hend : (P.keyPair (secretAt P seed start)).m_address.byte 0 = 0
      · rw [Wallet.makeKeyLoop, if_pos hend]
        constructor
        · intro h
          cases h
          exact ⟨0, le_refl 0, rfl, hend, by omega⟩
        · rintro ⟨n, hn, hk, -, -⟩
          obtain rfl : n = 0 := by omega
          rw [hk]
          simp
      · rw [Wallet.makeKeyLoop, if_neg hend]
        constructor
        · intro h
          cases h
        · rintro ⟨n, hn, -, hends, -⟩
          obtain rfl : n = 0 := by omega
          exact absurd hends hend
  | succ rounds ih =>
      rw [makeKeyLoop_succ]
      by_cases hend : (P.keyPair (secretAt P seed start)).m_address.byte 0 = 0
      · rw [if_pos hend]
        constructor
        · intro h
          cases h
          exact ⟨0, by omega, rfl, hend, by omega⟩
        · rintro ⟨n, -, hk, -, hfirst⟩
          obtain rfl : n = 0 := by
            by_contra hn
            exact hfirst 0 (by omega) hend
          rw [hk]
          simp
      · rw [if_neg hend]
        have hnext := ih (start + 1)
        rw [secretAt] at hnext
        rw [hnext]
        constructor
        · rintro ⟨n, hn, hk, hends, hfirst⟩
          refine ⟨n + 1, by omega, ?_, ?_, ?_⟩
          · rw [hk, Nat.add_right_comm start 1 n, Nat.add_assoc]
          · rwa [Nat.add_right_comm start 1 n, Nat.add_assoc] at hends
          · intro m hm
            cases m with
            | zero => exact hend
            | succ m =>
                rw [← Nat.add_assoc, Nat.add_right_comm]
                exact hfirst m (by omega)
        · rintro ⟨n, hn, hk, hends, hfirst⟩
          cases n with
          | zero => exact absurd hends hend
          | succ n =>
              rw [← Nat.add_assoc, Nat.add_right_comm] at hk hends
              refine ⟨n, by omega, hk, hends, ?_⟩
              intro m hm
              rw [Nat.add_right_comm, Nat.add_assoc]
              exact hfirst (m + 1) (by omega)

/-- **What `MakeKey` returns**: the key pair of the first secret the loop can end at. -/
theorem makeKey_eq_ok_iff (seed : Secret) (rounds : ℕ) (k : KeyPair) :
    Wallet.makeKey P seed rounds = .ok k ↔
      ∃ n, n ≤ rounds ∧ k = P.keyPair (secretAt P seed n) ∧ EndsLoop P (secretAt P seed n) ∧
        ∀ m < n, ¬ EndsLoop P (secretAt P seed m) := by
  have h := makeKeyLoop_eq_ok_iff P seed rounds 0 k
  rw [secretAt] at h
  rw [Wallet.makeKey, h]
  simp only [Nat.zero_add]

/-! ## When every key returned is usable -/

/-- The secret is valid and the loop ends at it. -/
def ValidEnd (s : Secret) : Prop :=
  P.toPublic s ≠ 0 ∧ (P.toAddress (P.toPublic s)).byte 0 = 0

/-- A secret the loop does not end at is valid, and no valid end. -/
theorem endsLoop_iff (s : Secret) : EndsLoop P s ↔ P.toPublic s = 0 ∨ ValidEnd P s := by
  by_cases hs : P.toPublic s = 0
  · simp [hs, endsLoop_of_null P hs]
  · simp [hs, EndsLoop, ValidEnd, keyPair_m_address_of_valid P hs]

/-- **Every key pair `MakeKey` returns is usable** exactly when the loop ends at a valid
secret before it meets an invalid one. -/
theorem makeKey_usable_iff (seed : Secret) :
    (∀ rounds k, Wallet.makeKey P seed rounds = .ok k → Usable P k) ↔
      ∀ n, P.toPublic (secretAt P seed n) = 0 → ∃ m < n, ValidEnd P (secretAt P seed m) := by
  constructor
  · intro hall n hnull
    -- the loop stops at the first secret that can end it, which is then a valid one
    have hex : ∃ n, EndsLoop P (secretAt P seed n) := ⟨n, endsLoop_of_null P hnull⟩
    classical
    have hends := Nat.find_spec hex
    have hk : Wallet.makeKey P seed (Nat.find hex) =
        .ok (P.keyPair (secretAt P seed (Nat.find hex))) := by
      rw [makeKey_eq_ok_iff]
      exact ⟨Nat.find hex, le_refl _, rfl, hends, fun m hm => Nat.find_min hex hm⟩
    have hvalid := (usable_keyPair_iff P hends).1 (hall _ _ hk)
    have hle : Nat.find hex ≤ n := Nat.find_min' hex (endsLoop_of_null P hnull)
    refine ⟨Nat.find hex, ?_, ?_⟩
    · apply lt_of_le_of_ne hle
      intro heq
      rw [heq] at hvalid
      exact hvalid hnull
    · exact ((endsLoop_iff P _).1 hends).resolve_left hvalid
  · intro hcond rounds k hk
    rw [makeKey_eq_ok_iff] at hk
    obtain ⟨n, -, rfl, hends, hfirst⟩ := hk
    rw [usable_keyPair_iff P hends]
    intro hnull
    obtain ⟨m, hm, hvalid⟩ := hcond n hnull
    exact hfirst m hm ((endsLoop_iff P _).2 (.inr hvalid))

/-- The zero secret is invalid, and `MakeKey` returns it with the null address. -/
theorem makeKey_returns_invalid :
    ¬ ∀ rounds k, Wallet.makeKey Reference.reference 0 rounds = .ok k →
      Usable Reference.reference k := by
  intro hall
  have hnull : Reference.reference.toPublic 0 = 0 := by decide
  have hk : Wallet.makeKey Reference.reference 0 0 =
      .ok (Reference.reference.keyPair 0) := by
    rw [makeKey_eq_ok_iff]
    exact ⟨0, le_refl 0, rfl, endsLoop_of_null _ hnull, by omega⟩
  exact (hall 0 _ hk).1 hnull

end TronWallet.Theorems
