import VeiledLedger.Proofs.DisclosureBinding

set_option autoImplicit false

/-! # Disclosures of one shape

Where two disclosures have as many components in the same groups, the same hidden groups and as many
outputs, nothing about the digests is needed but that they did not collide: every list that is hashed
has its counterpart of the same length, and lists of one length with one root are equal
(`leaves_eq_of_merkleRoot_eq`). The root of a view is then compared with that of the other from the
top-level list down to the nonces and the components (`root_eq_iff_of_sameShape`). No bytes can be
changed, exchanged or shown again within a shape without a change of the root. -/

namespace VeiledLedger

/-! ## Shapes -/

/-- Two disclosures use the same digests, and differ at most in the contents of components, nonces,
hidden roots and output leaves, apart from what they claim to lead to. -/
structure Disclosure.SameShape (d₁ d₂ : Disclosure) : Prop where
  digests_eq : d₁.digests = d₂.digests
  components : ∀ g, (d₁.components.get? g).map List.length = (d₂.components.get? g).map List.length
  hidden : ∀ g, d₁.hiddenRoots.contains g = d₂.hiddenRoots.contains g
  outputs : d₁.outputLeaves.length = d₂.outputLeaves.length

namespace Disclosure.SameShape

variable {d₁ d₂ : Disclosure} {g : UInt32}

theorem contains_components (h : d₁.SameShape d₂) (g : UInt32) :
    d₁.components.contains g = d₂.components.contains g := by
  have hsome := congrArg Option.isSome (h.components g)
  rwa [Option.isSome_map, Option.isSome_map] at hsome

/-- A group that one of them discloses is disclosed by the other with as many components. -/
theorem exists_components (h : d₁.SameShape d₂) {components₁ : List Bytes}
    (hg : d₁.components.get? g = some components₁) :
    ∃ components₂, d₂.components.get? g = some components₂ ∧
      components₁.length = components₂.length := by
  have hlen := h.components g
  rw [hg, Option.map_some] at hlen
  obtain ⟨components₂, hg₂, hlength⟩ := Option.map_eq_some_iff.mp hlen.symm
  exact ⟨components₂, hg₂, hlength.symm⟩

/-- The same groups have a slot in the top-level list. -/
theorem contains_groupRoots (h : d₁.SameShape d₂) (g : UInt32) :
    d₁.groupRoots.contains g = d₂.groupRoots.contains g := by
  rw [Bool.eq_iff_iff, contains_groupRoots_iff, contains_groupRoots_iff]
  simp only [List.mem_append, GroupMap.mem_keys_iff, h.contains_components g, h.hidden g]

end Disclosure.SameShape

/-! ## Views of one root -/

namespace PartialView

/-- Two views of one shape and with one root, and calls among which are all those made for them. -/
structure Matched (calls : List HashCall) (w₁ w₂ : PartialView) : Prop where
  free : CollisionFree calls
  shape : w₁.disclosure.SameShape w₂.disclosure
  subset₁ : w₁.disclosure.calls ⊆ calls
  subset₂ : w₂.disclosure.calls ⊆ calls
  root_eq : w₁.root = w₂.root

namespace Matched

variable {calls : List HashCall} {w₁ w₂ : PartialView} {g : UInt32}

theorem length_top_eq (h : Matched calls w₁ w₂) : w₁.top.length = w₂.top.length := by
  rw [w₁.top_eq, w₂.top_eq, w₁.roots_eq, w₂.roots_eq, length_topLevel, length_topLevel]
  exact topSpan_congr fun g _ => h.shape.contains_groupRoots g

theorem top_eq (h : Matched calls w₁ w₂) : w₁.top = w₂.top := by
  have hsub₁ := List.Subset.trans w₁.topCalls_subset h.subset₁
  have hsub₂ := List.Subset.trans w₂.topCalls_subset h.subset₂
  have hroot := h.root_eq
  rw [w₁.root_eq, w₂.root_eq, ← h.shape.digests_eq] at hroot
  rw [← h.shape.digests_eq] at hsub₂
  exact leaves_eq_of_merkleRoot_eq h.free h.length_top_eq hsub₁ hsub₂ hroot

/-- Both disclosures imply the same root for every group. -/
theorem impliedRoot_eq (h : Matched calls w₁ w₂) (g : UInt32) :
    w₁.disclosure.impliedRoot g = w₂.disclosure.impliedRoot g := by
  rw [← w₁.getD_top, ← w₂.getD_top, h.top_eq]

theorem outputLeaves_eq (h : Matched calls w₁ w₂) :
    w₁.disclosure.outputLeaves = w₂.disclosure.outputLeaves := by
  have hsub₁ := List.Subset.trans w₁.disclosure.outputCalls_subset h.subset₁
  have hsub₂ := List.Subset.trans w₂.disclosure.outputCalls_subset h.subset₂
  have hroot := h.impliedRoot_eq Role.outputs.ordinal
  rw [Disclosure.impliedRoot_outputs, Disclosure.impliedRoot_outputs, ← h.shape.digests_eq] at hroot
  rw [← h.shape.digests_eq] at hsub₂
  exact leaves_eq_of_merkleRoot_eq h.free h.shape.outputs hsub₁ hsub₂ hroot

/-- A disclosed group has the same components under the same nonces. -/
theorem disclosed_eq (h : Matched calls w₁ w₂) {components₁ : List Bytes}
    (hg₁ : w₁.disclosure.components.get? g = some components₁) :
    w₂.disclosure.components.get? g = some components₁ ∧
      w₁.disclosure.nonces.get? g = w₂.disclosure.nonces.get? g := by
  obtain ⟨components₂, hg₂, hlength⟩ := h.shape.exists_components hg₁
  obtain ⟨nonces₁, hn₁, hlen₁⟩ := Disclosure.exists_nonces w₁.wellFormed hg₁
  obtain ⟨nonces₂, hn₂, hlen₂⟩ := Disclosure.exists_nonces w₂.wellFormed hg₂
  obtain ⟨hleaf₁, htree₁⟩ := List.append_subset.mp
    (List.Subset.trans (Disclosure.groupCalls_subset hg₁ hn₁) h.subset₁)
  obtain ⟨hleaf₂, htree₂⟩ := List.append_subset.mp
    (List.Subset.trans (Disclosure.groupCalls_subset hg₂ hn₂) h.subset₂)
  have hroot := h.impliedRoot_eq g
  rw [Disclosure.impliedRoot_of_disclosed w₁.wellFormed hg₁ hn₁,
    Disclosure.impliedRoot_of_disclosed w₂.wellFormed hg₂ hn₂, ← h.shape.digests_eq] at hroot
  rw [← h.shape.digests_eq] at hleaf₂ htree₂
  have hleaves := leaves_eq_of_merkleRoot_eq h.free
    (by simp [DigestPair.leafHashes, hlen₁, hlen₂, hlength]) htree₁ htree₂ hroot
  obtain ⟨rfl, rfl⟩ := DigestPair.leafCalls_inj hlen₁ hlen₂
    (leafCalls_eq_of_leafHashes_eq h.free hleaf₁ hleaf₂ hleaves)
  exact ⟨hg₂, hn₁.trans hn₂.symm⟩

theorem components_eq (h : Matched calls w₁ w₂) :
    w₁.disclosure.components = w₂.disclosure.components := by
  refine GroupMap.ext_get? fun g => ?_
  cases hg : w₁.disclosure.components.get? g with
  | some components => exact (h.disclosed_eq hg).1.symm
  | none =>
    have hlen := h.shape.components g
    rw [hg] at hlen
    exact (Option.map_eq_none_iff.mp hlen.symm).symm

theorem nonces_eq (h : Matched calls w₁ w₂) : w₁.disclosure.nonces = w₂.disclosure.nonces := by
  refine GroupMap.ext_get? fun g => ?_
  cases hg : w₁.disclosure.components.get? g with
  | some components => exact (h.disclosed_eq hg).2
  | none =>
    -- there are no nonces without components
    have habsent {w : PartialView} (hw : w.disclosure.components.get? g = none) :
        w.disclosure.nonces.get? g = none := by
      rw [← GroupMap.contains_eq_false_iff, ← w.wellFormed.same_groups g]
      exact GroupMap.contains_eq_false_iff.mpr hw
    rw [habsent hg, habsent (h.components_eq ▸ hg)]

theorem hiddenRoots_eq (h : Matched calls w₁ w₂) :
    w₁.disclosure.hiddenRoots = w₂.disclosure.hiddenRoots := by
  refine GroupMap.ext_get? fun g => ?_
  have hcontains := h.shape.hidden g
  cases hg₁ : w₁.disclosure.hiddenRoots.get? g with
  | none =>
    rw [GroupMap.contains_eq_false_iff.mpr hg₁] at hcontains
    exact (GroupMap.contains_eq_false_iff.mp hcontains.symm).symm
  | some root₁ =>
    rw [GroupMap.contains_iff.mpr ⟨root₁, hg₁⟩] at hcontains
    obtain ⟨root₂, hg₂⟩ := GroupMap.contains_iff.mp hcontains.symm
    have hroot := h.impliedRoot_eq g
    rw [Disclosure.impliedRoot_of_hidden w₁.wellFormed hg₁,
      Disclosure.impliedRoot_of_hidden w₂.wellFormed hg₂] at hroot
    rw [hg₂, hroot]

end Matched

/-- The root is computed from the material of a disclosure, and not from what it claims. -/
theorem root_congr {w₁ w₂ : PartialView} (hdigests : w₁.disclosure.digests = w₂.disclosure.digests)
    (hcomponents : w₁.disclosure.components = w₂.disclosure.components)
    (hnonces : w₁.disclosure.nonces = w₂.disclosure.nonces)
    (hhidden : w₁.disclosure.hiddenRoots = w₂.disclosure.hiddenRoots)
    (houtputs : w₁.disclosure.outputLeaves = w₂.disclosure.outputLeaves) : w₁.root = w₂.root := by
  rw [w₁.root_eq, w₂.root_eq, w₁.top_eq, w₂.top_eq, w₁.roots_eq, w₂.roots_eq]
  unfold Disclosure.groupRoots Disclosure.leavesOf
  rw [hdigests, hcomponents, hnonces, hhidden, houtputs]

/-- Disclosures of one shape that are accepted lead to one root exactly if they have the same
components, nonces, hidden roots and output leaves, under any digests that do not collide. -/
theorem root_eq_iff_of_sameShape {d₁ d₂ : Disclosure} {w₁ w₂ : PartialView}
    (h₁ : reconstruct d₁ = .ok w₁) (h₂ : reconstruct d₂ = .ok w₂) (hshape : d₁.SameShape d₂)
    (hfree : CollisionFree (d₁.calls ++ d₂.calls)) :
    w₁.root = w₂.root ↔ d₁.components = d₂.components ∧ d₁.nonces = d₂.nonces ∧
      d₁.hiddenRoots = d₂.hiddenRoots ∧ d₁.outputLeaves = d₂.outputLeaves := by
  obtain rfl := reconstruct_eq_ok_iff.mp h₁
  obtain rfl := reconstruct_eq_ok_iff.mp h₂
  constructor
  · intro hroot
    have hmatched : Matched (w₁.disclosure.calls ++ w₂.disclosure.calls) w₁ w₂ :=
      ⟨hfree, hshape, List.subset_append_left _ _, List.subset_append_right _ _, hroot⟩
    exact ⟨hmatched.components_eq, hmatched.nonces_eq, hmatched.hiddenRoots_eq,
      hmatched.outputLeaves_eq⟩
  · rintro ⟨hcomponents, hnonces, hhidden, houtputs⟩
    exact root_congr hshape.digests_eq hcomponents hnonces hhidden houtputs

/-- A disclosure of two inputs, a hidden notary and an output. -/
def disclosureOfInputs (components : List Bytes) (nonces : List Hash) : Disclosure where
  digests := ⟨.blake3, .blake3⟩
  components := .ofList [(Role.inputs.ordinal, components)]
  nonces := .ofList [(Role.inputs.ordinal, nonces)]
  hiddenRoots := .ofList [(Role.notary.ordinal, Hash.fill 4)]
  outputLeaves := [Hash.fill 5]
  topRoots := []
  id := Hash.zero

/-- Two inputs that change places with their nonces lead to another root. -/
theorem root_ne_of_exchanged_inputs :
    ∃ w₁ w₂, reconstruct (disclosureOfInputs [[1], [2]] [Hash.fill 6, Hash.fill 7]) = .ok w₁ ∧
      reconstruct (disclosureOfInputs [[2], [1]] [Hash.fill 7, Hash.fill 6]) = .ok w₂ ∧
      w₁.disclosure.SameShape w₂.disclosure ∧
      CollisionFree (w₁.disclosure.calls ++ w₂.disclosure.calls) ∧ w₁.root ≠ w₂.root := by
  let d₁ := disclosureOfInputs [[1], [2]] [Hash.fill 6, Hash.fill 7]
  let d₂ := disclosureOfInputs [[2], [1]] [Hash.fill 7, Hash.fill 6]
  obtain ⟨w₁, hw₁⟩ := exists_of_wellFormed (d := d₁) (Disclosure.fault?_eq_none_iff.mp (by decide))
  obtain ⟨w₂, hw₂⟩ := exists_of_wellFormed (d := d₂) (Disclosure.fault?_eq_none_iff.mp (by decide))
  have hshape : d₁.SameShape d₂ := by
    refine ⟨rfl, fun g => ?_, fun g => rfl, rfl⟩
    show ((GroupMap.ofList _).get? g).map _ = ((GroupMap.ofList _).get? g).map _
    rw [GroupMap.get?_ofList, GroupMap.get?_ofList]
    by_cases hg : g = Role.inputs.ordinal <;> simp [GroupMap.lookup_cons_eq, hg]
  have hfree : CollisionFree (d₁.calls ++ d₂.calls) := by decide +kernel
  have h₁ := reconstruct_eq_ok_iff.mpr hw₁
  have h₂ := reconstruct_eq_ok_iff.mpr hw₂
  have hne : d₁.components ≠ d₂.components := by decide
  have hroot : w₁.root ≠ w₂.root :=
    fun hroot => hne ((root_eq_iff_of_sameShape h₁ h₂ hshape hfree).mp hroot).1
  rw [← hw₁, ← hw₂] at hshape hfree
  exact ⟨w₁, w₂, h₁, h₂, hshape, hfree, hroot⟩

end PartialView

end VeiledLedger
