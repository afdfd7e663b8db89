import VeiledLedger.Disclosure
import VeiledLedger.Padding

set_option autoImplicit false

/-! # Transactions as a verifier sees them

A `PartialView` is a disclosure of sound structure together with the roots recomputed from it; that
they are the recomputed ones is part of the type. The checks on a view are separate: against the
issued list and id (`verify`), against an id of the caller (`verifyAgainst`), for the groups that a
verifier cannot do without (`verifyForValidation`), and for the padded sizes (`verifySizes`). -/

namespace VeiledLedger

/-- A disclosure with everything that can be recomputed from it. -/
structure PartialView where
  disclosure : Disclosure
  /-- The root of every group with material. -/
  roots : GroupMap Hash
  /-- The recomputed top-level list. -/
  top : List Hash
  /-- The root of the recomputed top-level list. -/
  root : Hash
  fault_eq : disclosure.fault? = none
  roots_eq : roots = disclosure.groupRoots
  top_eq : top = topLevel roots
  root_eq : root = disclosure.digests.merkleRoot top

/-- The first position at which two lists differ, counted from a start, with the two hashes. -/
def firstMismatch : Nat → List Hash → List Hash → Option (Nat × Hash × Hash)
  | i, a :: as, b :: bs => if a = b then firstMismatch (i + 1) as bs else some (i, a, b)
  | _, _, _ => none

namespace PartialView

/-- The view of a disclosure, if the structure of the disclosure is sound. -/
def reconstruct (d : Disclosure) : Except Error PartialView :=
  match h : d.fault? with
  | some fault => .error (.malformedDisclosure fault)
  | none =>
    let roots := d.groupRoots
    let top := topLevel roots
    .ok ⟨d, roots, top, d.digests.merkleRoot top, h, rfl, rfl, rfl⟩

/-- The claimed transaction id. -/
def id (v : PartialView) : Hash := v.disclosure.id

/-- The digests that the disclosure names. -/
def digests (v : PartialView) : DigestPair := v.disclosure.digests

/-- The nonces of the disclosed groups. -/
def nonces (v : PartialView) : GroupMap (List Hash) := v.disclosure.nonces

/-- The leaves of the outputs. -/
def outputLeaves (v : PartialView) : List Hash := v.disclosure.outputLeaves

/-- The plaintext of a group, if it is disclosed. -/
def components? (v : PartialView) (role : Role) : Option (List Bytes) :=
  v.disclosure.components.get? role.ordinal

/-- Whether a group is disclosed. -/
def isDisclosed (v : PartialView) (role : Role) : Bool :=
  v.disclosure.components.contains role.ordinal

/-! ## Checks -/

/-- The recomputed list is the issued one, entry by entry, and its root is the claimed id. -/
def verify (v : PartialView) : Except Error Unit :=
  let issued := v.disclosure.topRoots
  if issued.length ≠ v.top.length then
    .error (.malformedDisclosure (.rootCount issued.length v.top.length))
  else
    match firstMismatch 0 issued v.top with
    | some (i, expected, computed) => .error (.hashMismatch (.groupRoot i) expected computed)
    | none =>
      if v.root = v.id then .ok ()
      else .error (.hashMismatch .transactionId v.id v.root)

/-- The view is sound, and its root is the id that the caller expects. -/
def verifyAgainst (v : PartialView) (expected : Hash) : Except Error Unit := do
  v.verify
  if v.root = expected then .ok ()
  else .error (.hashMismatch .expectedId expected v.root)

/-- The view is sound, and every mandatory group is disclosed. -/
def verifyForValidation (v : PartialView) : Except Error Unit := do
  v.verify
  match Role.mandatory.find? fun role => !v.isDisclosed role with
  | some role => .error (.undisclosedGroup role)
  | none => .ok ()

/-- What is wrong with the size of a group that is either empty or padded. -/
def sizeFault? (padding : Padding) (role : Role) (count : Nat) : Option StructureFault :=
  match padding.target? role with
  | some target => if count ≠ 0 ∧ count ≠ target then some (.groupSize role count target) else none
  | none => none

/-- How many components a disclosed group has, none if it is not disclosed. -/
def disclosedCount (v : PartialView) (role : Role) : Nat := ((v.components? role).getD []).length

/-- The digests are separated, and inputs, outputs and references are empty or have their padded
size. -/
def verifySizes (v : PartialView) (padding : Padding) : Except Error Unit :=
  if ¬ v.digests.Separated then .error (.malformedDisclosure (.sharedDigest v.digests.leaf))
  else
    -- outputs are counted by their leaves: their content never travels
    let counts := [(Role.inputs, v.disclosedCount .inputs), (.outputs, v.outputLeaves.length),
      (.references, v.disclosedCount .references)]
    match counts.findSome? fun e => sizeFault? padding e.1 e.2 with
    | some fault => .error (.malformedDisclosure fault)
    | none => .ok ()

end PartialView

end VeiledLedger
