import TronWallet.Model.Transaction

/-!
# Recovering the signer

`dev::recover` gives the public key a signature was made with, and the zero key where the
signature is none.  That is how a transaction is verified: the key recovered from each
signature must belong to the owner of the contract.  The library below it is a parameter,
as for signing.
-/

set_option autoImplicit false

namespace TronWallet.Model

/-- The recovery of libsecp256k1. -/
structure Recovery where
  /-- `secp256k1_ecdsa_recoverable_signature_parse_compact`, `secp256k1_ecdsa_recover` and the
  serialisation, `none` where one of the first two fails. -/
  ecdsaRecover : H520 → H256 → Option H512

namespace Recovery

variable (R : Recovery)

/-- SOURCE: libdevcrypto/Common.cpp:201-227 -/
def recover (sig : H520) (message : H256) : H512 :=
  if 3 < sig.byte 64 then 0 else (R.ecdsaRecover sig message).getD 0

end Recovery

/-- One call of `SignTransaction` with a key, and the two times it reads. -/
structure SignCall where
  key : Secret
  now : ℤ
  later : ℤ

/-- Signing a transaction again and again, `none` where a call returns false. -/
def signAll (P : Platform) (M : Messages) : Transaction → List SignCall → Option Transaction
  | t, [] => some t
  | t, call :: rest =>
    match signTransactionWith P M call.key call.now call.later t with
    | (true, t) => signAll P M t rest
    | (false, _) => none

end TronWallet.Model
