import VeiledLedger.Transaction

set_option autoImplicit false

/-! # Serializers

A transaction is cut into fields, and a serializer gives each field its bytes. Leaves are hashed
over these bytes, so equal fields must always get equal bytes; a function from fields to bytes can
do nothing else. -/

namespace VeiledLedger

/-- One field of a transaction. -/
inductive Field where
  | stateRef (ref : StateRef)
  | output (output : Output)
  /-- The value of a command; its signers are fields of their own. -/
  | command (command : Command)
  | attachment (hash : Hash)
  | notary (party : Party)
  | timeWindow (window : TimeWindow)
  | parametersHash (hash : Hash)
  | signer (key : PublicKey)
  deriving DecidableEq

/-- Gives fields their bytes, or refuses them. -/
abbrev Serializer := Field → Except SerializationFault Bytes

namespace Serializer

/-- The bytes of a field. -/
def component (z : Serializer) (field : Field) : Except Error Bytes :=
  (z field).mapError .serialization

/-- The bytes of fields, in order; the first refusal is the error. -/
def components (z : Serializer) (fields : List Field) : Except Error (List Bytes) :=
  fields.mapM z.component

end Serializer

end VeiledLedger
