import VeiledLedger.Grouping
import VeiledLedger.Merkle
import VeiledLedger.Salt

set_option autoImplicit false

/-! # The tree of a transaction

Each component is hashed with its nonce to a leaf, the leaves of a group to the group's root, and
the roots of all groups to the transaction id. The list of group roots spans every known ordinal
and every ordinal that is present; the sentinel stands for an absent group. -/

namespace VeiledLedger

/-! ## The top-level list -/

/-- The length of the top-level list: one beyond the highest ordinal, and at least the number of
known roles. It is counted without a bound here, while a length of 32 bits has nothing beyond ordinal
`2 ^ 32 - 1`: the list is meant for ordinals below that one. -/
def topSpan (roots : GroupMap Hash) : Nat :=
  match roots.maxKey? with
  | some highest => max Role.count (highest.toNat + 1)
  | none => Role.count

/-- The group roots by ordinal, with the sentinel for an absent group. -/
def topLevel (roots : GroupMap Hash) : List Hash :=
  (List.range (topSpan roots)).map fun i => (roots.get? (UInt32.ofNat i)).getD Hash.sentinel

/-! ## Leaves -/

/-- The leaves of components under their nonces, position by position. -/
def DigestPair.leafHashes (p : DigestPair) (nonces : List Hash) (components : List Bytes) :
    List Hash :=
  List.zipWith p.leafHash nonces components

/-- The root of a list of leaves. -/
def DigestPair.merkleRoot (p : DigestPair) (leaves : List Hash) : Hash :=
  Merkle.root p.nodeHash leaves

/-! ## The tree -/

/-- Everything that is hashed from the groups of a transaction. -/
structure CommitmentTree where
  digests : DigestPair
  /-- The nonces of each group. -/
  nonces : GroupMap (List Hash)
  /-- The leaves of each group. -/
  leaves : GroupMap (List Hash)
  /-- The root of each group. -/
  roots : GroupMap Hash
  /-- The top-level list. -/
  top : List Hash
  /-- The root of the top-level list: the transaction id. -/
  root : Hash
  deriving DecidableEq

namespace CommitmentTree

/-- The tree of the groups of a transaction. -/
def build (groups : Grouping) (salt : Salt) (digests : DigestPair) : CommitmentTree :=
  -- positions have 32 bits, and so has the number of nonces
  let nonces := groups.groups.map fun g components =>
    salt.nonces digests.leaf g (UInt32.ofNat components.length)
  let leaves := groups.groups.map fun g components =>
    digests.leafHashes ((nonces.get? g).getD []) components
  let roots := leaves.map fun _ hashes => digests.merkleRoot hashes
  let top := topLevel roots
  { digests, nonces, leaves, roots, top, root := digests.merkleRoot top }

/-- The root of a group, the sentinel if it is absent. -/
def rootOf (t : CommitmentTree) (g : UInt32) : Hash := (t.roots.get? g).getD Hash.sentinel

/-- The leaves of a group, none if it is absent. -/
def leavesOf (t : CommitmentTree) (g : UInt32) : List Hash := (t.leaves.get? g).getD []

/-- The nonces of a group, none if it is absent. -/
def noncesOf (t : CommitmentTree) (g : UInt32) : List Hash := (t.nonces.get? g).getD []

end CommitmentTree

end VeiledLedger
