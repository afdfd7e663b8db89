import VeiledLedger.Hashing.Blake3
import VeiledLedger.Hashing.Sha256
import VeiledLedger.Hashing.Sha3
import VeiledLedger.Text.Blank

set_option autoImplicit false

/-! # Digests

The three supported hash functions, each with a name and a number, and the pair of digests under
which a transaction is hashed: one for leaves and nonces, one for the inner nodes of its trees. -/

namespace VeiledLedger

/-- A 256-bit hash function. -/
inductive Digest where
  | sha256
  | sha3
  | blake3
  deriving DecidableEq, Repr

/-- Why a digest could not be identified. -/
inductive DigestError where
  | unknownId (id : UInt8)
  | unknownName (text : String)
  deriving DecidableEq

/-- The text of an error. -/
def DigestError.message : DigestError → String
  | .unknownId id => s!"Unknown digest algorithm id: {id}"
  | .unknownName text => s!"Unknown digest algorithm: {text}"

namespace Digest

/-- The digests in the order of their numbers. -/
def all : List Digest := [sha256, sha3, blake3]

/-- The number of a digest. -/
def id : Digest → UInt8
  | sha256 => 1
  | sha3 => 2
  | blake3 => 3

/-- The name of a digest. -/
def name : Digest → String
  | sha256 => "sha256"
  | sha3 => "sha3-256"
  | blake3 => "blake3"

/-- The digest with a given number. -/
def ofId (id : UInt8) : Except DigestError Digest :=
  match all.find? (·.id == id) with
  | some d => .ok d
  | none => .error (.unknownId id)

/-- The digest with a given name; blanks around it and the case of ASCII letters do not count. -/
def ofName (text : String) : Except DigestError Digest :=
  let wanted := (Text.trim text).map Char.toLower
  match all.find? (·.name == wanted) with
  | some d => .ok d
  | none => .error (.unknownName text)

/-- The hash of a byte string. -/
def hash : Digest → Bytes → Hash
  | sha256 => Hashing.Sha256.hash
  | sha3 => Hashing.Sha3.hash
  | blake3 => Hashing.Blake3.hash

/-- The hash of two hashes joined: an inner node of a tree. -/
def node (d : Digest) (left right : Hash) : Hash := d.hash (left.bytes ++ right.bytes)

end Digest

/-- The digests of one transaction. -/
structure DigestPair where
  /-- Hashes a nonce followed by a component, and derives nonces. -/
  leaf : Digest
  /-- Hashes two nodes into their parent. -/
  node : Digest
  deriving DecidableEq

namespace DigestPair

/-- The pair used where none is chosen. -/
def standard : DigestPair := ⟨.blake3, .sha256⟩

/-- The leaf of a component under its nonce. -/
def leafHash (p : DigestPair) (nonce : Hash) (component : Bytes) : Hash :=
  p.leaf.hash (nonce.bytes ++ component)

/-- The parent of two nodes. -/
def nodeHash (p : DigestPair) (left right : Hash) : Hash := p.node.node left right

/-- Leaves and inner nodes are hashed by different functions, so that neither can pass for the
other. -/
def Separated (p : DigestPair) : Prop := p.leaf ≠ p.node

instance (p : DigestPair) : Decidable p.Separated := inferInstanceAs (Decidable (_ ≠ _))

end DigestPair

end VeiledLedger
