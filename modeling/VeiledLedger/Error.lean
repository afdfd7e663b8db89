import VeiledLedger.Digest
import VeiledLedger.Role

set_option autoImplicit false

/-! # Errors

Every way in which building, packing or checking a transaction can fail, as data: an `Error` says
what went wrong and with which group, position or hash. The wording is in the `message` functions
and nowhere else. -/

namespace VeiledLedger

/-- What is wrong with the material that a transaction or a participant is made from. -/
inductive ConfigurationFault where
  | zeroSalt
  | groupAddedTwice (ordinal : UInt32)
  | notPaddable (role : Role)
  | sizeMissing (role : Role)
  | fillerMissing (role : Role)
  | unboundedTimeWindow
  | emptyTimeWindow (start stop : UInt64)
  | commandCount (count : Nat)
  | notaryMissing
  | sharedDigest (digest : Digest)
  /-- A fault described by the caller. -/
  | stated (text : String)
  deriving DecidableEq

/-- The text of a fault. -/
def ConfigurationFault.message : ConfigurationFault → String
  | .zeroSalt => "privacy salt must not be all zeros"
  | .groupAddedTwice ordinal => s!"group {ordinal} added twice"
  | .notPaddable role => s!"group {role.name} is not paddable"
  | .sizeMissing role => s!"padding size missing for {role.name}"
  | .fillerMissing role => s!"padding filler missing for {role.name}"
  | .unboundedTimeWindow => "time window needs at least one bound"
  | .emptyTimeWindow start stop => s!"time window start {start} is not before end {stop}"
  | .commandCount count => s!"exactly one command required, got {count}"
  | .notaryMissing => "notary is required"
  | .sharedDigest digest => s!"leaf and node digest must differ, both are {digest.name}"
  | .stated text => text

/-- In what way the parts of a disclosure do not fit together. -/
inductive StructureFault where
  | noncesMissing (ordinal : UInt32)
  | nonceCount (ordinal : UInt32) (components nonces : Nat)
  | disclosedAndHidden (ordinal : UInt32)
  | strayNonces (ordinal : UInt32)
  | outputsNotAsLeaves
  | rootCount (issued computed : Nat)
  | sharedDigest (digest : Digest)
  | groupSize (role : Role) (count padded : Nat)
  | groupPathElsewhere (index : UInt32)
  | topPathElsewhere (group : UInt32)
  /-- A fault described by the caller. -/
  | stated (text : String)
  deriving DecidableEq

/-- The text of a fault. -/
def StructureFault.message : StructureFault → String
  | .noncesMissing ordinal => s!"group {ordinal} has no nonces"
  | .nonceCount ordinal components nonces =>
    s!"group {ordinal} has {components} components but {nonces} nonces"
  | .disclosedAndHidden ordinal => s!"group {ordinal} is both disclosed and hidden"
  | .strayNonces ordinal => s!"nonces for undisclosed group {ordinal}"
  | .outputsNotAsLeaves => "outputs must travel as leaf hashes"
  | .rootCount issued computed => s!"{issued} top-level roots issued, {computed} recomputed"
  | .sharedDigest digest => s!"leaf and node digest are both {digest.name}"
  | .groupSize role count padded =>
    s!"group {role.name} carries {count} entries, padded size is Some({padded})"
  | .groupPathElsewhere index => s!"group path does not lead to component {index}"
  | .topPathElsewhere group => s!"top path does not lead to group {group}"
  | .stated text => text

/-- Which two hashes were compared. -/
inductive Checkpoint where
  | groupRoot (position : Nat)
  | transactionId
  | expectedId
  | component (index group : UInt32)
  | resolvedId
  | outputLeaf (index : UInt32)
  /-- A comparison described by the caller. -/
  | stated (text : String)
  deriving DecidableEq

/-- The text of a comparison. -/
def Checkpoint.message : Checkpoint → String
  | .groupRoot position => s!"group {position} root"
  | .transactionId => "transaction id"
  | .expectedId => "expected transaction id"
  | .component index group => s!"component {index} of group {group}"
  | .resolvedId => "resolved transaction id"
  | .outputLeaf index => s!"output {index} leaf"
  | .stated text => text

/-- Why a storage did not answer. -/
inductive StorageFault where
  | io (text : String)
  | corrupt (text : String)
  | unavailable
  deriving DecidableEq

/-- The text of a fault. -/
def StorageFault.message : StorageFault → String
  | .io text => s!"I/O error: {text}"
  | .corrupt text => s!"Serialization error: {text}"
  | .unavailable => "Storage unavailable"

/-- Why a field of a transaction has no byte form. -/
structure SerializationFault where
  text : String
  deriving DecidableEq

/-- The text of a fault. -/
def SerializationFault.message (fault : SerializationFault) : String :=
  s!"Serialization error: {fault.text}"

/-- Why an operation on transactions failed. -/
inductive Error where
  | configuration (fault : ConfigurationFault)
  /-- A group holds more components than it may. -/
  | oversizedGroup (role : Role) (count target : Nat)
  /-- A hash is not the one that was promised. -/
  | hashMismatch (checkpoint : Checkpoint) (expected computed : Hash)
  /-- No transaction with this id is known. -/
  | unknownTransaction (id : Hash)
  /-- A group that is needed did not arrive as plaintext. -/
  | undisclosedGroup (role : Role)
  | malformedDisclosure (fault : StructureFault)
  | componentNotFound (group : UInt32) (index : Nat)
  | outputNotFound (id : Hash) (index : UInt32)
  /-- No claim backs a state that is spent or referenced. -/
  | unprovenState (role : Role) (index : Nat)
  | serialization (fault : SerializationFault)
  | storage (fault : StorageFault)
  deriving DecidableEq

/-- The text of an error. Hashes are quoted by their first eight octets. -/
def Error.message : Error → String
  | .configuration fault => s!"Configuration error: {fault.message}"
  | .oversizedGroup role count target =>
    s!"Group {role.name} holds {count} components, padding target is {target}"
  | .hashMismatch checkpoint expected computed =>
    s!"Hash mismatch ({checkpoint.message}): expected {expected.short}, computed {computed.short}"
  | .unknownTransaction id => s!"Transaction not found: {id.short}"
  | .undisclosedGroup role => s!"Group {role.name} must be disclosed for verification"
  | .malformedDisclosure fault => s!"Malformed disclosure: {fault.message}"
  | .componentNotFound group index => s!"Component {index} not found in group {group}"
  | .outputNotFound id index => s!"Output {index} not found in transaction {id.short}"
  | .unprovenState role index => s!"No UTXO commitment for {role.name} component {index}"
  | .serialization fault => fault.message
  | .storage fault => s!"Storage error: {fault.message}"

end VeiledLedger
