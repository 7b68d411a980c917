import TronWallet.Analysis.ColdFiles
import TronWallet.Reference.Runs

/-!
# A cold lookup returns the key of the address asked for

The address and the key of a generated pair are noted under one identifier, written as one
entry of a dictionary and noted again, under a new identifier, when the dictionary is
read.  `PairedKey` is kept all the way, in every order of operations, so that a lookup by
address can only return the key that owns the address.
-/

set_option autoImplicit false

namespace TronWallet.Theorems

open TronWallet.Lib TronWallet.Model TronWallet.Analysis

variable (P : Platform)

/-- A key and the text of its address; the zero key stands for no key. -/
def PairedKey (s b : Bytes) : Prop :=
  (FixedHash.ofBytes b : Secret) ≠ 0 →
    s = addressEncodeBase58Check P (toTronAddress (P.keyPair (FixedHash.ofBytes b)).m_address)

/-- Every generated pair is paired. -/
theorem pairedKey_coldAddress {seed : Secret} {rounds : ℕ} {k : KeyPair}
    (h : Wallet.makeKey P seed rounds = .ok k) :
    PairedKey P (coldAddress P k) k.m_secret.m_data := by
  intro _
  rw [FixedHash.ofBytes_m_data, ← makeKey_eq P h]
  rfl

/-- **A cold lookup never returns another address's key.** -/
theorem lookupPrivate_owns_address (hjson : JsonLaws P) (as : List Action)
    (hread : WrongKeyUnreadable P as) (o : Order) (s : Bytes)
    (h : Wallet.lookupPrivate o (Wallet.run P as) s ≠ 0) :
    addressEncodeBase58Check P (toTronAddress
      (P.keyPair (Wallet.lookupPrivate o (Wallet.run P as) s)).m_address) = s := by
  obtain ⟨hmem, -⟩ := cold_run P hjson (fun _ _ _ => pairedKey_coldAddress P) hread
  obtain ⟨uuid, b, hs, hb, heq⟩ := exists_entry_of_lookupPrivate h
  have hpaired := (hmem.entries uuid s b hs hb).2
  rw [heq] at h ⊢
  exact (hpaired h).symm

/-- An address generated before a restart is listed and looked up after it. -/
theorem lookupPrivate_owns_address_reloaded :
    Wallet.lookupPrivate Order.held (Wallet.run Reference.reference
        [Reference.create [97] [2] 1, Reference.generate 7, .restart, Reference.enter [2],
          Reference.list 60]) (Reference.generated 7) ≠ 0 ∧
      addressEncodeBase58Check Reference.reference (toTronAddress
        (Reference.reference.keyPair (Wallet.lookupPrivate Order.held
          (Wallet.run Reference.reference
            [Reference.create [97] [2] 1, Reference.generate 7, .restart, Reference.enter [2],
              Reference.list 60]) (Reference.generated 7))).m_address) = Reference.generated 7 := by
  have hfound : Wallet.lookupPrivate Order.held (Wallet.run Reference.reference
      [Reference.create [97] [2] 1, Reference.generate 7, .restart, Reference.enter [2],
        Reference.list 60]) (Reference.generated 7) ≠ 0 := by decide +kernel
  exact ⟨hfound, lookupPrivate_owns_address Reference.reference Reference.reference_json _
    (EveryStep.of_check (by decide +kernel)) Order.held (Reference.generated 7) hfound⟩

end TronWallet.Theorems
