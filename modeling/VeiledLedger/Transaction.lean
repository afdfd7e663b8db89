import VeiledLedger.Error

set_option autoImplicit false

/-! # Transactions before they are cut into components

The fields of a transaction as its author assembles them, and the shape that they must have: exactly
one command, a notary, and a time window, if there is one, that some instant lies in. -/

namespace VeiledLedger

/-- A public key in its byte form. -/
abbrev PublicKey := Bytes

/-- A pointer to one output of an earlier transaction. -/
structure StateRef where
  /-- The id of the transaction that produced the state. -/
  txId : Hash
  /-- The position among its outputs. -/
  index : UInt32
  deriving DecidableEq

/-- References are ordered by their octets, then by position. -/
def StateRef.le (a b : StateRef) : Bool :=
  match compare a.txId.bytes b.txId.bytes with
  | .lt => true
  | .eq => a.index ≤ b.index
  | .gt => false

/-- A produced state: a type tag and a body. -/
structure Output where
  discriminant : UInt32
  data : Bytes
  deriving DecidableEq

/-- A command with the keys that must sign for it. -/
structure Command where
  discriminant : UInt32
  data : Bytes
  signers : List PublicKey
  deriving DecidableEq

/-- The identity of a notary. -/
structure Party where
  name : String
  owningKey : PublicKey
  deriving DecidableEq

/-- A validity interval in seconds: the start is inside, the end is not. -/
structure TimeWindow where
  start? : Option UInt64
  stop? : Option UInt64
  deriving DecidableEq

namespace TimeWindow

/-- A window has a bound, and its start comes before its end. -/
def check (w : TimeWindow) : Except Error Unit :=
  match w.start?, w.stop? with
  | none, none => .error (.configuration .unboundedTimeWindow)
  | some start, some stop =>
    if start < stop then .ok () else .error (.configuration (.emptyTimeWindow start stop))
  | _, _ => .ok ()

/-- The window between two instants. -/
def between (start stop : UInt64) : Except Error TimeWindow := do
  let w : TimeWindow := ⟨some start, some stop⟩
  w.check
  return w

end TimeWindow

/-- The fields of a transaction. -/
structure Body where
  inputs : List StateRef
  outputs : List Output
  references : List StateRef
  commands : List Command
  attachments : List Hash
  notary? : Option Party
  timeWindow? : Option TimeWindow
  parametersHash? : Option Hash
  deriving DecidableEq

/-- The command and the notary of a body that has the required shape. -/
def Body.shape (body : Body) : Except Error (Command × Party) := do
  let [command] := body.commands | .error (.configuration (.commandCount body.commands.length))
  let some notary := body.notary? | .error (.configuration .notaryMissing)
  if let some w := body.timeWindow? then w.check
  return (command, notary)

end VeiledLedger
