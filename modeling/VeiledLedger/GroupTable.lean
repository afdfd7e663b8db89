import VeiledLedger.Padding

set_option autoImplicit false

/-! # Groups that are changed in place

While a transaction is put together, its groups stand in a table, each under an ordinal and together
with the ordinal that it was given, and every call changes the table that it finds. Nothing in the
type of a table keeps a group without components out of it, or one in the wrong place, and a call
that fails keeps what it has changed until then. -/

namespace VeiledLedger

/-- Groups by ordinal, each together with the ordinal that it was given. -/
abbrev GroupTable := GroupMap ComponentGroup

namespace GroupTable

/-- A change to a table, which may fail. What it changes before it fails stays changed. -/
abbrev Update := ExceptT Error (StateM GroupTable) Unit

/-- A list with a given length: it is cut off at its end or filled up there. -/
def resize (components : List Bytes) (size : Nat) (filler : Bytes) : List Bytes :=
  components.take size ++ List.replicate (size - components.length) filler

/-- Adds the group at an ordinal, from the values that are present. -/
def addOrdinal (ordinal : UInt32) (values : List (Option Bytes)) : Update := do
  if (← get).contains ordinal then throw (.configuration (.groupAddedTwice ordinal))
  let components := values.reduceOption
  if components ≠ [] then
    modify fun table => table.insert ordinal ⟨ordinal, components⟩

/-- Adds the group of a role. -/
def add (role : Role) (values : List (Option Bytes)) : Update := addOrdinal role.ordinal values

/-- Adds the group of a role with its components in the order of their tags. -/
def addTagged (role : Role) (values : List (Option TaggedComponent)) : Update :=
  let tagged := sortByKey (·.discriminant) values.reduceOption
  add role (tagged.map fun item => some item.bytes)

/-- Resizes the group of a role to its target, where it stands. -/
def padGroup (p : Padding) (role : Role) (filler : Bytes) : Update := do
  if !role.isPaddable then throw (.configuration (.notPaddable role))
  match (← get).get? role.ordinal with
  | none => return
  | some group =>
    liftExcept (p.checkSize role group.components.length)
    let size := (p.target? role).getD group.components.length
    modify fun table => table.insert role.ordinal
      { group with components := resize group.components size filler }

end GroupTable

/-! ## Calls -/

/-- The calls that change groups. -/
inductive GroupCall where
  | add (role : Role) (values : List (Option Bytes))
  | addOrdinal (ordinal : UInt32) (values : List (Option Bytes))
  | addTagged (role : Role) (values : List (Option TaggedComponent))
  | pad (role : Role) (filler : Bytes)
  deriving DecidableEq

namespace GroupCall

/-- What a call does to a table. -/
def update (p : Padding) : GroupCall → GroupTable.Update
  | .add role values => GroupTable.add role values
  | .addOrdinal ordinal values => GroupTable.addOrdinal ordinal values
  | .addTagged role values => GroupTable.addTagged role values
  | .pad role filler => GroupTable.padGroup p role filler

/-- The answer of a call, and the table that it leaves. -/
def run (p : Padding) (call : GroupCall) (table : GroupTable) : Except Error Unit × GroupTable :=
  (call.update p).run.run table

/-- The same call on a grouping. -/
def apply (p : Padding) (g : Grouping) : GroupCall → Except Error Grouping
  | .add role values => g.add role values
  | .addOrdinal ordinal values => g.addOrdinal ordinal values
  | .addTagged role values => g.addTagged role values
  | .pad role filler => p.padGroup g role filler

/-- The grouping after a call: the one before it, if the call fails. -/
def next (p : Padding) (g : Grouping) (call : GroupCall) : Grouping :=
  (call.apply p g).toOption.getD g

end GroupCall

/-- The table after calls, one after another from no groups. A call that fails stops none of the
later ones. -/
def GroupTable.after (p : Padding) (calls : List GroupCall) : GroupTable :=
  calls.foldl (fun table call => (call.run p table).2) .empty

/-- The grouping after the same calls. -/
def Grouping.after (p : Padding) (calls : List GroupCall) : Grouping :=
  calls.foldl (fun g call => call.next p g) .empty

end VeiledLedger
