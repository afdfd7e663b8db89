import VeiledLedger.Wire.Formats

set_option autoImplicit false

/-! # The types that travel

All types with a schema in one list, with the types of their parts, so that a law about what travels
can be stated of every one of them at once. -/

namespace VeiledLedger.Wire

/-- The types that are sent, stored or configured, with the types of their parts. -/
inductive WireType where
  | octet | word | long | text | hash | bytes
  | digest | digestPair | role | side
  | stateRef | output | command | party | timeWindow | body
  | componentGroup | pathStep | componentProof | stateClaim | disclosure | payload
  | stateRefTarget | outputTarget | signerTarget
  | padding | paddingPlan | policy

namespace WireType

/-- The values of a type. -/
def Value : WireType → Type
  | octet => UInt8
  | word => UInt32
  | long => UInt64
  | text => String
  | hash => Hash
  | bytes => Bytes
  | digest => Digest
  | digestPair => DigestPair
  | role => Role
  | side => Merkle.Side
  | stateRef => StateRef
  | output => Output
  | command => Command
  | party => Party
  | timeWindow => TimeWindow
  | body => Body
  | componentGroup => ComponentGroup
  | pathStep => Merkle.PathStep
  | componentProof => ComponentProof
  | stateClaim => StateClaim
  | disclosure => Disclosure
  | payload => Payload
  | stateRefTarget => PaddingTarget StateRef
  | outputTarget => PaddingTarget Output
  | signerTarget => PaddingTarget PublicKey
  | padding => Padding
  | paddingPlan => PaddingPlan
  | policy => Policy

/-- The schema of a type. -/
def schema : (t : WireType) → Schema t.Value
  | octet => .octet
  | word => .word
  | long => .long
  | text => .text
  | hash => .hash
  | bytes => .bytes
  | digest => Digest.schema
  | digestPair => DigestPair.schema
  | role => Role.schema
  | side => Merkle.Side.schema
  | stateRef => StateRef.schema
  | output => Output.schema
  | command => Command.schema
  | party => Party.schema
  | timeWindow => TimeWindow.schema
  | body => Body.schema
  | componentGroup => ComponentGroup.schema
  | pathStep => Merkle.PathStep.schema
  | componentProof => ComponentProof.schema
  | stateClaim => StateClaim.schema
  | disclosure => Disclosure.schema
  | payload => Payload.schema
  | stateRefTarget => PaddingTarget.schema StateRef.schema
  | outputTarget => PaddingTarget.schema Output.schema
  | signerTarget => PaddingTarget.schema .bytes
  | padding => Padding.schema
  | paddingPlan => PaddingPlan.schema
  | policy => Policy.schema

end WireType

end VeiledLedger.Wire
