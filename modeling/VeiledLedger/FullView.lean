import VeiledLedger.ComponentProof
import VeiledLedger.PartialView
import VeiledLedger.Serializer
import VeiledLedger.StateClaim

set_option autoImplicit false

/-! # Transactions as their author sees them

A `FullView` holds the plaintext of every group, the salt, and the tree over them; that the tree is
the tree of those groups is part of the type. It is made from the fields of a transaction (`build`)
or from groups that are serialized already (`ofGroups`). From it come the disclosure for a verifier,
proofs of single components, and claims about its outputs. -/

namespace VeiledLedger

/-- A transaction with all its plaintext and all its hashes. -/
structure FullView where
  groups : Grouping
  salt : Salt
  tree : CommitmentTree
  /-- The signers extended to their target size, for the proof witness. -/
  witnessSigners : List Bytes
  tree_eq : tree = CommitmentTree.build groups salt tree.digests

namespace FullView

/-- The view of groups under a salt and digests. -/
def assemble (groups : Grouping) (salt : Salt) (digests : DigestPair)
    (witnessSigners : List Bytes) : FullView :=
  ⟨groups, salt, CommitmentTree.build groups salt digests, witnessSigners, rfl⟩

/-! ## Building -/

/-- The groups of a body before padding. -/
def unpaddedGroups (z : Serializer) (body : Body) (command : Command) (notary : Party)
    (outputs : List TaggedComponent) (signers : List Bytes) : Except Error Grouping := do
  let inputs ← z.components (body.inputs.map .stateRef)
  let g ← Grouping.empty.add .inputs (inputs.map some)
  let g ← g.addTagged .outputs (outputs.map some)
  let value ← z.component (.command command)
  let g ← g.add .commands [some value]
  let attachments ← z.components (body.attachments.map .attachment)
  let g ← g.add .attachments (attachments.map some)
  let party ← z.component (.notary notary)
  let g ← g.add .notary [some party]
  let window ← z.components (body.timeWindow?.toList.map .timeWindow)
  let g ← g.add .timeWindow (window.map some)
  let g ← g.add .signers (signers.map some)
  let references ← z.components (body.references.map .stateRef)
  let g ← g.add .references (references.map some)
  let parameters ← z.components (body.parametersHash?.toList.map .parametersHash)
  g.add .parameters (parameters.map some)

/-- An output as a component with the tag of its type. -/
def taggedOutput (z : Serializer) (output : Output) : Except Error TaggedComponent := do
  let bytes ← z.component (.output output)
  return ⟨output.discriminant, bytes⟩

/-- The view of a body: its fields are serialized and grouped, and inputs, outputs and references
are extended to their target sizes. -/
def build (body : Body) (padding : Padding) (salt : Salt) (digests : DigestPair) (z : Serializer) :
    Except Error FullView := do
  let (command, notary) ← body.shape
  -- outputs and signers are serialized before all else: the first refusal is the error
  let outputs ← body.outputs.mapM (taggedOutput z)
  let signers ← z.components (command.signers.map .signer)
  let g ← unpaddedGroups z body command notary outputs signers
  let inputFiller ← z.component (.stateRef padding.inputs.filler)
  let outputFiller ← z.component (.output padding.outputs.filler)
  let referenceFiller ← z.component (.stateRef padding.references.filler)
  let signerFiller ← z.component (.signer padding.signers.filler)
  -- the first group in this order that is too large is the error
  let g ← padding.padGroup g .inputs inputFiller
  let g ← padding.padGroup g .outputs outputFiller
  let g ← padding.padGroup g .references referenceFiller
  -- the group of signers itself is not padded
  let witnessSigners ← padding.padComponents .signers signers signerFiller
  return assemble g salt digests witnessSigners

/-- The view of groups that are serialized and padded already. One command and a notary are still
required. -/
def ofGroups (groups : Grouping) (salt : Salt) (digests : DigestPair) : Except Error FullView :=
  let count := (groups.components .commands).length
  if count ≠ 1 then .error (.configuration (.commandCount count))
  else if groups.groups.contains Role.notary.ordinal then
    .ok (assemble groups salt digests (groups.components .signers))
  else .error (.configuration .notaryMissing)

/-! ## Reading -/

/-- The transaction id: the root of the top-level list. -/
def id (v : FullView) : Hash := v.tree.root

/-- The digests of the transaction. -/
def digests (v : FullView) : DigestPair := v.tree.digests

/-- The leaves of the outputs. -/
def outputLeaves (v : FullView) : List Hash := v.tree.leavesOf Role.outputs.ordinal

/-- The root of the group of a role, the sentinel if it is absent. -/
def groupRoot (v : FullView) (role : Role) : Hash := v.tree.rootOf role.ordinal

/-- Views are compared by their ids. -/
instance : BEq FullView := ⟨fun a b => a.id == b.id⟩

/-! ## Disclosing -/

/-- The roles that are disclosed as plaintext. -/
def disclosedRoles : List Role := Role.all.filter fun role => role.visibility = .disclosed

/-- The material for a verifier. A disclosed role is always listed, without components if it has no
group, so that "empty" differs from "withheld". -/
def disclosure (v : FullView) : Disclosure where
  digests := v.digests
  components := .ofList (disclosedRoles.map fun role => (role.ordinal, v.groups.components role))
  nonces := .ofList (disclosedRoles.map fun role => (role.ordinal, v.tree.noncesOf role.ordinal))
  hiddenRoots := v.tree.roots.filter fun g _ => Visibility.ofOrdinal g = .hidden
  outputLeaves := v.outputLeaves
  topRoots := v.tree.top
  id := v.id

/-- The transaction as a verifier will see it. -/
def toPartial (v : FullView) : Except Error PartialView := PartialView.reconstruct v.disclosure

/-- The proof of the component at a position, if there is one. -/
def componentProof? (v : FullView) (g : UInt32) (i : Nat) : Option ComponentProof := do
  let components ← v.groups.groups.get? g
  let component ← components[i]?
  let nonce ← (v.tree.noncesOf g)[i]?
  let groupPath ← Merkle.path? v.digests.nodeHash (v.tree.leavesOf g) i
  let topPath ← Merkle.path? v.digests.nodeHash v.tree.top g.toNat
  return ⟨g, UInt32.ofNat i, component, nonce, groupPath, topPath⟩

/-- The proof of the component at a position. -/
def discloseComponent (v : FullView) (g : UInt32) (i : Nat) : Except Error ComponentProof :=
  match v.componentProof? g i with
  | some proof => .ok proof
  | none => .error (.componentNotFound g i)

/-- The claim about the output at a position, if there is one. -/
def stateClaim? (v : FullView) (i : UInt32) : Option StateClaim := do
  let content ← (v.groups.components .outputs)[i.toNat]?
  let nonce ← (v.tree.noncesOf Role.outputs.ordinal)[i.toNat]?
  return ⟨⟨v.id, i⟩, content, nonce⟩

/-- The claim that the next owner of an output presents. -/
def stateClaim (v : FullView) (i : UInt32) : Except Error StateClaim :=
  match v.stateClaim? i with
  | some claim => .ok claim
  | none => .error (.componentNotFound Role.outputs.ordinal i.toNat)

end FullView

end VeiledLedger
