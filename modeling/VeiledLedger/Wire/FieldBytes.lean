import VeiledLedger.Wire.Binary
import VeiledLedger.Wire.Formats

set_option autoImplicit false

/-! # The bytes of fields

The serializer that participants use: every field has its binary wire form, and none is refused. The
signers of a command are not part of its bytes. -/

namespace VeiledLedger

open Wire

/-- The binary form of a field. -/
def Field.bytes : Field → Bytes
  | .stateRef r => Binary.encode StateRef.schema r
  | .output o => Binary.encode Output.schema o
  | .command c => Binary.encode Command.valueSchema (c.discriminant, c.data)
  | .attachment h => Binary.encode .hash h
  | .notary p => Binary.encode Party.schema p
  | .timeWindow w => Binary.encode TimeWindow.schema w
  | .parametersHash h => Binary.encode .hash h
  | .signer key => Binary.encode .bytes key

/-- Gives every field its binary form. -/
def Serializer.binary : Serializer := fun field => .ok field.bytes

end VeiledLedger
