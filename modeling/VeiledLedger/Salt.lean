import VeiledLedger.Error

set_option autoImplicit false

/-! # Salts and nonces

Every nonce of a transaction comes from one secret salt and the nonce's position, so a nonce that is
shown says nothing about any other. -/

namespace VeiledLedger

/-- The secret behind the nonces of a transaction; it is never all zeros. -/
structure Salt where
  hash : Hash
  nonzero : hash ≠ Hash.zero
  deriving DecidableEq

namespace Salt

/-- The width of a salt in octets. -/
def length : Nat := 32

/-- A hash as a salt; all zeros are refused. -/
def ofHash (hash : Hash) : Except Error Salt :=
  if h : hash = Hash.zero then .error (.configuration .zeroSalt) else .ok ⟨hash, h⟩

/-- How a salt shows itself: its octets stay secret. -/
def masked (_ : Salt) : String := "PrivacySalt(..)"

/-- What a nonce is the hash of: the salt and the two parts of the position. -/
def nonceInput (salt : Salt) (group index : UInt32) : Bytes :=
  salt.hash.bytes ++ beBytes 4 group.toNat ++ beBytes 4 index.toNat

/-- The nonce of the component at a position of a group. -/
def nonce (salt : Salt) (digest : Digest) (group index : UInt32) : Hash :=
  digest.hash (salt.nonceInput group index)

/-- The nonces of the first `count` positions of a group. -/
def nonces (salt : Salt) (digest : Digest) (group count : UInt32) : List Hash :=
  (List.range count.toNat).map fun i => salt.nonce digest group (UInt32.ofNat i)

end Salt

end VeiledLedger
