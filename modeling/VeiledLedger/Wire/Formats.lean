import VeiledLedger.FullView
import VeiledLedger.Payload
import VeiledLedger.Policy
import VeiledLedger.Wire.Schema

set_option autoImplicit false

/-! # The schemas of the types that travel

One schema for each type of the library that is sent, stored or configured. The names and the order
of the fields are those of the wire. -/

namespace VeiledLedger

open Wire

/-! ## Enumerations -/

/-- The digests with their names on the wire. -/
def Digest.variants : Variants Digest where
  decEq := inferInstance
  all := Digest.all
  name
    | .sha256 => "Sha256"
    | .sha3 => "Sha3_256"
    | .blake3 => "Blake3"
  complete := by intro a; cases a <;> decide
  nodup := by decide
  small := by decide
  name_inj := by intro a b; cases a <;> cases b <;> decide

/-- A digest. -/
def Digest.schema : Schema Digest := .choice Digest.variants

/-- The roles with their names. -/
def Role.variants : Variants Role where
  decEq := inferInstance
  all := Role.all
  name := Role.name
  complete := Role.mem_all
  nodup := by decide
  small := by decide
  name_inj := by intro a b; cases a <;> cases b <;> decide

/-- A role. -/
def Role.schema : Schema Role := .choice Role.variants

/-- The sides with their names. -/
def Merkle.Side.variants : Variants Merkle.Side where
  decEq := inferInstance
  all := [.left, .right]
  name
    | .left => "Left"
    | .right => "Right"
  complete := by intro a; cases a <;> decide
  nodup := by decide
  small := by decide
  name_inj := by intro a b; cases a <;> cases b <;> decide

/-- A side. -/
def Merkle.Side.schema : Schema Merkle.Side := .choice Merkle.Side.variants

/-! ## Transactions -/

/-- A pair of digests. -/
def DigestPair.schema : Schema DigestPair := .record
  (.cons "leaf" Digest.schema (.cons "node" Digest.schema .nil (by decide)) (by decide))
  (fun (leaf, node, _) => ⟨leaf, node⟩) (fun p => (p.leaf, p.node, ()))
  (fun _ => rfl) (fun _ => rfl)

/-- A state reference. -/
def StateRef.schema : Schema StateRef := .record
  (.cons "tx_id" .hash (.cons "index" .word .nil (by decide)) (by decide))
  (fun (txId, index, _) => ⟨txId, index⟩) (fun r => (r.txId, r.index, ()))
  (fun _ => rfl) (fun _ => rfl)

/-- An output. -/
def Output.schema : Schema Output := .record
  (.cons "discriminant" .word (.cons "data" .bytes .nil (by decide)) (by decide))
  (fun (discriminant, data, _) => ⟨discriminant, data⟩) (fun o => (o.discriminant, o.data, ()))
  (fun _ => rfl) (fun _ => rfl)

/-- A command with its signers. -/
def Command.schema : Schema Command := .record
  (.cons "discriminant" .word (.cons "data" .bytes (.cons "signers" (.list .bytes) .nil
    (by decide)) (by decide)) (by decide))
  (fun (discriminant, data, signers, _) => ⟨discriminant, data, signers⟩)
  (fun c => (c.discriminant, c.data, c.signers, ()))
  (fun _ => rfl) (fun _ => rfl)

/-- The value of a command: its type tag and its body. -/
def Command.valueSchema : Schema (UInt32 × Bytes) := .record
  (.cons "discriminant" .word (.cons "data" .bytes .nil (by decide)) (by decide))
  (fun (discriminant, data, _) => (discriminant, data)) (fun c => (c.1, c.2, ()))
  (fun _ => rfl) (fun _ => rfl)

/-- A notary. -/
def Party.schema : Schema Party := .record
  (.cons "name" .text (.cons "owning_key" .bytes .nil (by decide)) (by decide))
  (fun (name, owningKey, _) => ⟨name, owningKey⟩) (fun p => (p.name, p.owningKey, ()))
  (fun _ => rfl) (fun _ => rfl)

/-- A time window. -/
def TimeWindow.schema : Schema TimeWindow := .record
  (.cons "from" (.option .long) (.cons "until" (.option .long) .nil (by decide)) (by decide))
  (fun (start, stop, _) => ⟨start, stop⟩) (fun w => (w.start?, w.stop?, ()))
  (fun _ => rfl) (fun _ => rfl)

/-- The fields of a transaction. -/
def Body.schema : Schema Body := .record
  (.cons "inputs" (.list StateRef.schema) (.cons "outputs" (.list Output.schema)
    (.cons "references" (.list StateRef.schema) (.cons "commands" (.list Command.schema)
    (.cons "attachments" (.list .hash) (.cons "notary" (.option Party.schema)
    (.cons "time_window" (.option TimeWindow.schema) (.cons "parameters_hash" (.option .hash) .nil
    (by decide)) (by decide)) (by decide)) (by decide)) (by decide)) (by decide)) (by decide))
    (by decide))
  (fun (inputs, outputs, references, commands, attachments, notary, window, parameters, _) =>
    ⟨inputs, outputs, references, commands, attachments, notary, window, parameters⟩)
  (fun b => (b.inputs, b.outputs, b.references, b.commands, b.attachments, b.notary?,
    b.timeWindow?, b.parametersHash?, ()))
  (fun _ => rfl) (fun _ => rfl)

/-- A component group. -/
def ComponentGroup.schema : Schema ComponentGroup := .record
  (.cons "group_index" .word (.cons "components" (.list .bytes) .nil (by decide)) (by decide))
  (fun (ordinal, components, _) => ⟨ordinal, components⟩) (fun g => (g.ordinal, g.components, ()))
  (fun _ => rfl) (fun _ => rfl)

/-! ## Disclosures and proofs -/

/-- A step of a path. -/
def Merkle.PathStep.schema : Schema Merkle.PathStep := .record
  (.cons "hash" .hash (.cons "position" Merkle.Side.schema .nil (by decide)) (by decide))
  (fun (hash, side, _) => ⟨hash, side⟩) (fun s => (s.hash, s.side, ()))
  (fun _ => rfl) (fun _ => rfl)

/-- The proof of a component. -/
def ComponentProof.schema : Schema ComponentProof := .record
  (.cons "group_index" .word (.cons "component_index" .word (.cons "component" .bytes
    (.cons "nonce" .hash (.cons "group_path" (.list Merkle.PathStep.schema)
    (.cons "top_path" (.list Merkle.PathStep.schema) .nil (by decide)) (by decide)) (by decide))
    (by decide)) (by decide)) (by decide))
  (fun (group, index, component, nonce, groupPath, topPath, _) =>
    ⟨group, index, component, nonce, groupPath, topPath⟩)
  (fun p => (p.group, p.index, p.component, p.nonce, p.groupPath, p.topPath, ()))
  (fun _ => rfl) (fun _ => rfl)

/-- A claim about a state. -/
def StateClaim.schema : Schema StateClaim := .record
  (.cons "state_ref" StateRef.schema (.cons "serialized_content" .bytes
    (.cons "nonce" .hash .nil (by decide)) (by decide)) (by decide))
  (fun (stateRef, content, nonce, _) => ⟨stateRef, content, nonce⟩)
  (fun c => (c.stateRef, c.content, c.nonce, ()))
  (fun _ => rfl) (fun _ => rfl)

/-- A disclosure. -/
def Disclosure.schema : Schema Disclosure := .record
  (.cons "digests" DigestPair.schema (.cons "disclosed_components" (.map (.list .bytes))
    (.cons "disclosed_nonces" (.map (.list .hash)) (.cons "hidden_group_roots" (.map .hash)
    (.cons "output_leaf_hashes" (.list .hash) (.cons "top_level_roots" (.list .hash)
    (.cons "id" .hash .nil (by decide)) (by decide)) (by decide)) (by decide)) (by decide))
    (by decide)) (by decide))
  (fun (digests, components, nonces, hiddenRoots, outputLeaves, topRoots, id, _) =>
    ⟨digests, components, nonces, hiddenRoots, outputLeaves, topRoots, id⟩)
  (fun d => (d.digests, d.components, d.nonces, d.hiddenRoots, d.outputLeaves, d.topRoots, d.id,
    ()))
  (fun _ => rfl) (fun _ => rfl)

/-- A payload. -/
def Payload.schema : Schema Payload := .record
  (.cons "disclosure" Disclosure.schema (.cons "input_commitments" (.list StateClaim.schema) .nil
    (by decide)) (by decide))
  (fun (disclosure, claims, _) => ⟨disclosure, claims⟩) (fun p => (p.disclosure, p.claims, ()))
  (fun _ => rfl) (fun _ => rfl)

/-! ## Listings -/

/-- A disclosure as it is listed on the wire. -/
structure Disclosure.Listing where
  digests : DigestPair
  /-- The plaintext of the disclosed groups. -/
  components : List (UInt32 × List Bytes)
  /-- The nonces of the disclosed groups. -/
  nonces : List (UInt32 × List Hash)
  /-- The roots of the hidden groups. -/
  hiddenRoots : List (UInt32 × Hash)
  outputLeaves : List Hash
  topRoots : List Hash
  id : Hash

/-- A payload as it is listed on the wire. -/
structure Payload.Listing where
  disclosure : Disclosure.Listing
  claims : List StateClaim

/-- A listed disclosure, with the fields of a disclosure. -/
def Disclosure.Listing.schema : Schema Disclosure.Listing := .record
  (.cons "digests" DigestPair.schema (.cons "disclosed_components" (.entries (.list .bytes))
    (.cons "disclosed_nonces" (.entries (.list .hash)) (.cons "hidden_group_roots" (.entries .hash)
    (.cons "output_leaf_hashes" (.list .hash) (.cons "top_level_roots" (.list .hash)
    (.cons "id" .hash .nil (by decide)) (by decide)) (by decide)) (by decide)) (by decide))
    (by decide)) (by decide))
  (fun (digests, components, nonces, hiddenRoots, outputLeaves, topRoots, id, _) =>
    ⟨digests, components, nonces, hiddenRoots, outputLeaves, topRoots, id⟩)
  (fun l => (l.digests, l.components, l.nonces, l.hiddenRoots, l.outputLeaves, l.topRoots, l.id,
    ()))
  (fun _ => rfl) (fun _ => rfl)

/-- A listed payload, with the fields of a payload. -/
def Payload.Listing.schema : Schema Payload.Listing := .record
  (.cons "disclosure" Disclosure.Listing.schema
    (.cons "input_commitments" (.list StateClaim.schema) .nil (by decide)) (by decide))
  (fun (disclosure, claims, _) => ⟨disclosure, claims⟩) (fun l => (l.disclosure, l.claims, ()))
  (fun _ => rfl) (fun _ => rfl)

/-! ## Settings -/

/-- The size and the filler of a group. -/
def PaddingTarget.schema {α : Type} (filler : Schema α) : Schema (PaddingTarget α) := .record
  (.cons "size" .long (.cons "filler" filler .nil (by decide)) (by decide))
  (fun (size, filler, _) => ⟨size, filler⟩) (fun t => (t.size, t.filler, ()))
  (fun _ => rfl) (fun _ => rfl)

/-- A complete declaration of sizes and fillers. -/
def Padding.schema : Schema Padding := .record
  (.cons "inputs" (PaddingTarget.schema StateRef.schema)
    (.cons "outputs" (PaddingTarget.schema Output.schema)
    (.cons "references" (PaddingTarget.schema StateRef.schema)
    (.cons "signers" (PaddingTarget.schema .bytes) .nil (by decide)) (by decide)) (by decide))
    (by decide))
  (fun (inputs, outputs, references, signers, _) => ⟨inputs, outputs, references, signers⟩)
  (fun p => (p.inputs, p.outputs, p.references, p.signers, ()))
  (fun _ => rfl) (fun _ => rfl)

/-- A declaration in the making. -/
def PaddingPlan.schema : Schema PaddingPlan := .record
  (.cons "inputs_size" (.option .long) (.cons "input_filler" (.option StateRef.schema)
    (.cons "outputs_size" (.option .long) (.cons "output_filler" (.option Output.schema)
    (.cons "references_size" (.option .long) (.cons "reference_filler" (.option StateRef.schema)
    (.cons "signers_size" (.option .long) (.cons "signer_filler" (.option .bytes) .nil
    (by decide)) (by decide)) (by decide)) (by decide)) (by decide)) (by decide)) (by decide))
    (by decide))
  (fun (inputsSize, inputFiller, outputsSize, outputFiller, referencesSize, referenceFiller,
      signersSize, signerFiller, _) =>
    ⟨inputsSize, inputFiller, outputsSize, outputFiller, referencesSize, referenceFiller,
      signersSize, signerFiller⟩)
  (fun p => (p.inputsSize?, p.inputFiller?, p.outputsSize?, p.outputFiller?, p.referencesSize?,
    p.referenceFiller?, p.signersSize?, p.signerFiller?, ()))
  (fun _ => rfl) (fun _ => rfl)

/-- A policy. -/
def Policy.schema : Schema Policy := .record
  (.cons "leaf_digest" Digest.schema (.cons "node_digest" Digest.schema
    (.cons "padding" PaddingPlan.schema (.cons "store_capacity" .long .nil (by decide))
    (by decide)) (by decide)) (by decide))
  (fun (leafDigest, nodeDigest, padding, capacity, _) =>
    ⟨leafDigest, nodeDigest, padding, capacity⟩)
  (fun p => (p.leafDigest, p.nodeDigest, p.padding, p.archiveCapacity, ()))
  (fun _ => rfl) (fun _ => rfl)

end VeiledLedger
