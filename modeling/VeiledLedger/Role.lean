set_option autoImplicit false

/-! # Roles of component groups

A transaction is cut into groups of components, one for each structural role. The ordinal of a role
is the group's place in the top-level list of roots and enters the derivation of its nonces.
Ordinals above the known ones are legal and have no role. -/

namespace VeiledLedger

/-- What the components of a group are. -/
inductive Role where
  | inputs
  | outputs
  | commands
  | attachments
  | notary
  | timeWindow
  | signers
  | references
  | parameters
  deriving DecidableEq, Repr

/-- How a group reaches a verifier. -/
inductive Visibility where
  /-- As plaintext with its nonces. -/
  | disclosed
  /-- As the hashes of its leaves. -/
  | leafHashes
  /-- As its root. -/
  | hidden
  deriving DecidableEq, Repr

namespace Role

/-- The roles in the order of their ordinals. -/
def all : List Role :=
  [inputs, outputs, commands, attachments, notary, timeWindow, signers, references, parameters]

/-- The number of known roles. -/
def count : Nat := 9

/-- The place of a role. -/
def ordinal : Role → UInt32
  | inputs => 0
  | outputs => 1
  | commands => 2
  | attachments => 3
  | notary => 4
  | timeWindow => 5
  | signers => 6
  | references => 7
  | parameters => 8

/-- The role at a place, for the known ones. -/
def ofOrdinal? (ordinal : UInt32) : Option Role := all[ordinal.toNat]?

/-- The name of a role. -/
def name : Role → String
  | inputs => "Inputs"
  | outputs => "Outputs"
  | commands => "Commands"
  | attachments => "Attachments"
  | notary => "Notary"
  | timeWindow => "TimeWindow"
  | signers => "Signers"
  | references => "References"
  | parameters => "Parameters"

/-- Whether a group of this role is extended to a fixed size before it is hashed. -/
def isPaddable : Role → Bool
  | inputs | outputs | references => true
  | _ => false

/-- How a group of this role reaches a verifier. -/
def visibility : Role → Visibility
  | inputs | references | notary | timeWindow | parameters => .disclosed
  | outputs => .leafHashes
  | commands | attachments | signers => .hidden

/-- The roles that a verifier cannot do without. -/
def mandatory : List Role := [inputs, timeWindow, references, parameters]

theorem ofOrdinal?_ordinal (r : Role) : ofOrdinal? r.ordinal = some r := by
  cases r <;> rfl

theorem mem_all (r : Role) : r ∈ all := by
  cases r <;> decide

end Role

/-- How the group with a given ordinal reaches a verifier: a group without a role is hidden. -/
def Visibility.ofOrdinal (ordinal : UInt32) : Visibility :=
  match Role.ofOrdinal? ordinal with
  | some r => r.visibility
  | none => .hidden

end VeiledLedger
