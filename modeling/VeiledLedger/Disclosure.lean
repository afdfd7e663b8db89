import VeiledLedger.CommitmentTree

set_option autoImplicit false

/-! # Disclosures

What the author of a transaction hands to a verifier: the plaintext and nonces of some groups, the
roots of others, the leaves of the outputs, and the list of roots and the id that all of this is to
lead to. `fault?` says in what way the parts do not fit together; `groupRoots` is what can be
recomputed from them. -/

namespace VeiledLedger

/-- The material of a transaction that a verifier gets to see. -/
structure Disclosure where
  digests : DigestPair
  /-- The plaintext of the disclosed groups. -/
  components : GroupMap (List Bytes)
  /-- The nonces of the disclosed groups. -/
  nonces : GroupMap (List Hash)
  /-- The roots of the hidden groups. -/
  hiddenRoots : GroupMap Hash
  /-- The leaves of the outputs. -/
  outputLeaves : List Hash
  /-- The top-level list of roots. -/
  topRoots : List Hash
  /-- The claimed transaction id. -/
  id : Hash
  deriving DecidableEq

namespace Disclosure

/-! ## Structure -/

/-- What is wrong with one disclosed group. -/
def groupFault? (d : Disclosure) (g : UInt32) (components : List Bytes) : Option StructureFault :=
  match d.nonces.get? g with
  | none => some (.noncesMissing g)
  | some nonces =>
    if nonces.length ≠ components.length then
      some (.nonceCount g components.length nonces.length)
    else if d.hiddenRoots.contains g then some (.disclosedAndHidden g)
    else none

/-- The first disclosed group that something is wrong with. -/
def disclosedFault? (d : Disclosure) : Option StructureFault :=
  d.components.entries.findSome? fun e => d.groupFault? e.1 e.2

/-- The first list of nonces without a disclosed group. -/
def strayFault? (d : Disclosure) : Option StructureFault :=
  (d.nonces.keys.find? fun g => !d.components.contains g).map .strayNonces

/-- Outputs may be neither disclosed nor hidden. -/
def outputsFault? (d : Disclosure) : Option StructureFault :=
  if d.components.contains Role.outputs.ordinal || d.hiddenRoots.contains Role.outputs.ordinal then
    some .outputsNotAsLeaves
  else none

/-- The first thing that is wrong with the structure of a disclosure. -/
def fault? (d : Disclosure) : Option StructureFault :=
  match d.disclosedFault? with
  | some fault => some fault
  | none =>
    match d.strayFault? with
    | some fault => some fault
    | none => d.outputsFault?

/-! ## Recomputed roots -/

/-- The leaves of a disclosed group. -/
def leavesOf (d : Disclosure) (g : UInt32) (components : List Bytes) : List Hash :=
  d.digests.leafHashes ((d.nonces.get? g).getD []) components

/-- The root of every group with material: recomputed from plaintext or leaves, or taken over. -/
def groupRoots (d : Disclosure) : GroupMap Hash :=
  let recomputed := d.components.map fun g components =>
    d.digests.merkleRoot (d.leavesOf g components)
  (recomputed.union d.hiddenRoots).insert Role.outputs.ordinal
    (d.digests.merkleRoot d.outputLeaves)

end Disclosure

end VeiledLedger
