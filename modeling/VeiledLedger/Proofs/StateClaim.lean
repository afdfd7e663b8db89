import VeiledLedger.Proofs.FullView
import VeiledLedger.Proofs.MerklePaths
import VeiledLedger.Proofs.Participant

set_option autoImplicit false

/-! # What an accepted claim is anchored in

A claim that is accepted agrees with a leaf of the outputs of the transaction that was found, and
this leaf leads to the root that was recomputed for that transaction (`rootFrom_outputPath`). Whether
the root is the id that the claim names depends on what was found: the id of a full view is its root,
but a partial view has the id that its disclosure claims, and the comparison with the root is left
to whoever made the view (`root_eq_iff_of_verify`). -/

namespace VeiledLedger

namespace KnownTransaction

variable {t : KnownTransaction} {leaf : Hash} {i : Nat}

/-! ## From an output to the root -/

/-- The top-level list as this side computed it. -/
def top : KnownTransaction → List Hash
  | full v => v.tree.top
  | part v => v.top

theorem root_eq (t : KnownTransaction) : t.root = t.digests.merkleRoot t.top := by
  cases t with
  | full v => exact v.id_eq
  | part v => exact v.root_eq

/-- The slot of the outputs holds the root of their leaves, whether there are any or not. -/
theorem getElem?_top_outputs (t : KnownTransaction) :
    t.top[Role.outputs.ordinal.toNat]? = some (t.digests.merkleRoot t.outputLeaves) := by
  cases t with
  | full v =>
    show v.tree.top[Role.outputs.ordinal.toNat]? = _
    rw [v.getElem?_top_role .outputs, FullView.groupRoot, v.rootOf_eq_merkleRoot]
    rfl
  | part v =>
    show v.top[Role.outputs.ordinal.toNat]? = _
    rw [v.getElem?_top_role .outputs, Disclosure.impliedRoot_outputs]
    rfl

/-- The path from an output to its group, and from there to the root of the transaction. -/
def outputPath (t : KnownTransaction) (i : Nat) : List Merkle.PathStep :=
  Merkle.pathAt t.digests.nodeHash (treeHeight t.outputLeaves.length) t.outputLeaves i
    ++ Merkle.pathAt t.digests.nodeHash (treeHeight t.top.length) t.top Role.outputs.ordinal.toNat

/-- Every output leads to the root that was recomputed for its transaction. -/
theorem rootFrom_outputPath (h : t.outputLeaves[i]? = some leaf) :
    Merkle.rootFrom t.digests.nodeHash leaf (t.outputPath i) = t.root := by
  rw [outputPath, Merkle.rootFrom_append,
    Merkle.rootFrom_pathAt_self _ h (le_two_pow_treeHeight _), t.root_eq]
  exact Merkle.rootFrom_pathAt_self _ t.getElem?_top_outputs (le_two_pow_treeHeight _)

end KnownTransaction

/-! ## Accepted claims -/

namespace StateClaim

variable {σ : Type} {resolve : Resolver σ} {s : σ} {c : StateClaim}

/-- Whatever look-ups give: the leaf of an accepted claim is an output of what was found and leads to
the root of that. This root is the named id exactly if a partial view that was found has the root
that it claims as its id. -/
theorem root_eq_iff_of_verify (h : ((c.verify resolve).run.run s).1 = .ok ()) :
    ∃ prior, ((resolve c.stateRef.txId).run s).1 = .ok (some prior) ∧
      prior.outputLeaves[c.stateRef.index.toNat]? = some (c.leafHash prior.digests) ∧
      Merkle.rootFrom prior.digests.nodeHash (c.leafHash prior.digests)
        (prior.outputPath c.stateRef.index.toNat) = prior.root ∧
      (prior.root = c.stateRef.txId ↔ ∀ view, prior = .part view → view.root = view.id) := by
  obtain ⟨prior, hfound, hid, hleaf⟩ := verify_eq_ok_iff.mp h
  refine ⟨prior, hfound, hleaf, KnownTransaction.rootFrom_outputPath hleaf, ?_⟩
  rw [← hid]
  cases prior with
  | full v => exact iff_of_true rfl fun view hview => by cases hview
  | part v =>
    constructor
    · rintro hroot view hview
      obtain rfl := KnownTransaction.part.inj hview
      exact hroot
    · exact fun h => h v rfl

open Participant (twoOutputs secondOutput)

/-- The claim about an output of a transaction that is known in full leads to its id. -/
theorem secondOutput_root_eq :
    let archive := (Archive.empty 1).insert (.full twoOutputs)
    ((secondOutput.verify Archive.resolver).run.run archive).1 = .ok () ∧
      ∃ prior, ((Archive.resolver secondOutput.stateRef.txId).run archive).1 = .ok (some prior) ∧
        Merkle.rootFrom prior.digests.nodeHash (secondOutput.leafHash prior.digests)
          (prior.outputPath secondOutput.stateRef.index.toNat) = secondOutput.stateRef.txId := by
  intro archive
  have hfound : ((Archive.resolver secondOutput.stateRef.txId).run archive).1
      = .ok (some (.full twoOutputs)) := by
    rw [Archive.run_resolver_fst]
    exact congrArg Except.ok (Archive.peek?_insert_self (.empty 1) (.full twoOutputs))
  have hverify : ((secondOutput.verify Archive.resolver).run.run archive).1 = .ok () :=
    verify_eq_ok_iff.mpr ⟨.full twoOutputs, hfound, rfl, rfl⟩
  obtain ⟨prior, hprior, -, hpath, hroot⟩ := root_eq_iff_of_verify hverify
  have hfull : prior = .full twoOutputs := by
    rw [hfound] at hprior
    exact (Option.some.inj (Except.ok.inj hprior)).symm
  refine ⟨hverify, prior, hprior, hpath.trans (hroot.mpr fun view hview => ?_)⟩
  rw [hfull] at hview
  cases hview

/-- A claim about an output of a transaction that nobody has made. -/
def inventedOutput : StateClaim := ⟨⟨Hash.zero, 0⟩, [7], Hash.zero⟩

/-- A disclosure that has this output, and names the id of that transaction. -/
def inventedDisclosure : Disclosure where
  digests := ⟨.sha256, .blake3⟩
  components := .empty
  nonces := .empty
  hiddenRoots := .empty
  outputLeaves := [inventedOutput.leafHash ⟨.sha256, .blake3⟩]
  topRoots := []
  id := Hash.zero

/-- A view that was never compared with its id makes the claim pass. -/
theorem exists_inventedOutput_verify :
    ∃ view, PartialView.reconstruct inventedDisclosure = .ok view ∧
      let archive := (Archive.empty 1).insert (.part view)
      ((inventedOutput.verify Archive.resolver).run.run archive).1 = .ok () ∧
        ((Archive.resolver inventedOutput.stateRef.txId).run archive).1
          = .ok (some (.part view)) ∧
        view.root ≠ inventedOutput.stateRef.txId := by
  let view : PartialView := ⟨inventedDisclosure, _, _, _, rfl, rfl, rfl, rfl⟩
  have hfound : ((Archive.resolver inventedOutput.stateRef.txId).run
      ((Archive.empty 1).insert (.part view))).1 = .ok (some (.part view)) := by
    rw [Archive.run_resolver_fst]
    exact congrArg Except.ok (Archive.peek?_insert_self (.empty 1) (.part view))
  refine ⟨view, PartialView.reconstruct_eq_ok_iff.mpr rfl, ?_, hfound, ?_⟩
  · exact verify_eq_ok_iff.mpr ⟨.part view, hfound, rfl, rfl⟩
  · show inventedDisclosure.digests.merkleRoot (topLevel inventedDisclosure.groupRoots) ≠ Hash.zero
    decide +kernel

end StateClaim

end VeiledLedger
