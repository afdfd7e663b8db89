import VeiledLedger.Digest
import VeiledLedger.Error
import VeiledLedger.Merkle

set_option autoImplicit false

/-! # Proofs of single components

One component with its nonce and two paths: from its leaf to the root of its group, and from there
to the transaction id. The sides of each path must spell out the position that is claimed, in a word
of 64 bits (`Merkle.indexWord`). -/

namespace VeiledLedger

/-- A component with the paths that tie it to a transaction id. -/
structure ComponentProof where
  group : UInt32
  index : UInt32
  component : Bytes
  nonce : Hash
  /-- From the leaf to the root of the group. -/
  groupPath : List Merkle.PathStep
  /-- From the root of the group to the id. -/
  topPath : List Merkle.PathStep
  deriving DecidableEq

namespace ComponentProof

/-- The id that both paths lead to, one after the other. -/
def computedId (p : ComponentProof) (digests : DigestPair) : Hash :=
  let leaf := digests.leafHash p.nonce p.component
  Merkle.rootFrom digests.nodeHash (Merkle.rootFrom digests.nodeHash leaf p.groupPath) p.topPath

/-- The paths lead from the claimed position to the id. -/
def verify (p : ComponentProof) (id : Hash) (digests : DigestPair) : Except Error Unit :=
  if Merkle.indexWord p.groupPath ≠ p.index.toUInt64 then
    .error (.malformedDisclosure (.groupPathElsewhere p.index))
  else if Merkle.indexWord p.topPath ≠ p.group.toUInt64 then
    .error (.malformedDisclosure (.topPathElsewhere p.group))
  else if p.computedId digests = id then .ok ()
  else .error (.hashMismatch (.component p.index p.group) id (p.computedId digests))

end ComponentProof

end VeiledLedger
