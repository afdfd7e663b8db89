import VeiledLedger.Padding

set_option autoImplicit false

/-! # Policies

What the participants of a ledger agree on: the digests, the padding, and how many transactions each
of them remembers. -/

namespace VeiledLedger

/-- The settings of a participant. -/
structure Policy where
  /-- Hashes leaves and derives nonces. -/
  leafDigest : Digest
  /-- Hashes inner nodes. -/
  nodeDigest : Digest
  /-- The declaration of sizes and fillers, complete or not. -/
  padding : PaddingPlan
  /-- The number of transactions to remember. -/
  archiveCapacity : UInt64
  deriving DecidableEq

namespace Policy

/-- The policy used where none is chosen. -/
def standard : Policy := ⟨.blake3, .sha256, .uniform 2, 10000⟩

/-- A policy with wider padding and a small archive. -/
def trial : Policy := ⟨.blake3, .sha256, .uniform 4, 64⟩

/-- The digests as a pair. -/
def digests (p : Policy) : DigestPair := ⟨p.leafDigest, p.nodeDigest⟩

end Policy

end VeiledLedger
