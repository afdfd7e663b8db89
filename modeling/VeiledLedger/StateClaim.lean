import VeiledLedger.Transaction

set_option autoImplicit false

/-! # Claims about states

A claim says what an output of an earlier transaction holds. It can be checked against that
transaction's leaf of the output and needs nothing else of it. -/

namespace VeiledLedger

/-- The content of a state and the nonce that it was hashed with. -/
structure StateClaim where
  stateRef : StateRef
  content : Bytes
  nonce : Hash
  deriving DecidableEq

/-- The leaf that the claimed content hashes to. -/
def StateClaim.leafHash (c : StateClaim) (digests : DigestPair) : Hash :=
  digests.leafHash c.nonce c.content

end VeiledLedger
