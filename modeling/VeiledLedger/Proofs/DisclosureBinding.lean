import VeiledLedger.Proofs.HashCalls
import VeiledLedger.Proofs.Participant

set_option autoImplicit false

/-! # What an accepted disclosure commits to

Two disclosures that one participant accepts under one id are compared from the id downwards. The
top-level lists may have different lengths, so their heights have to be compared first; this is done
along the left edge of both trees, from the id through the slot of the inputs to the first input.
The edge ends in a leaf or in the sentinel and in nothing else, and since inputs must be disclosed
and have their padded size, both edges leave the top-level list at the same depth
(`treeHeight_top_eq`). From there on the lists agree slot by slot, and each slot determines the
material behind it. -/

namespace VeiledLedger

/-! ## The calls of a disclosure -/

namespace Disclosure

/-- The calls that are made when the roots of a disclosure are recomputed. -/
def calls (d : Disclosure) : List HashCall :=
  d.components.entries.flatMap (fun e => d.digests.groupCalls ((d.nonces.get? e.1).getD []) e.2)
    ++ d.digests.treeCalls d.outputLeaves ++ d.digests.treeCalls (topLevel d.groupRoots)

variable {d : Disclosure}

theorem groupCalls_subset {g : UInt32} {components : List Bytes} {nonces : List Hash}
    (hg : d.components.get? g = some components) (hn : d.nonces.get? g = some nonces) :
    d.digests.groupCalls nonces components ⊆ d.calls := by
  intro call hcall
  refine List.mem_append_left _ (List.mem_append_left _ (List.mem_flatMap.mpr ?_))
  refine ⟨(g, components), (d.components.mem_entries_iff _ _).mpr hg, ?_⟩
  rwa [hn]

theorem outputCalls_subset (d : Disclosure) : d.digests.treeCalls d.outputLeaves ⊆ d.calls :=
  fun _ hcall => List.mem_append_left _ (List.mem_append_right _ hcall)

end Disclosure

namespace PartialView

variable {v : PartialView}

theorem topCalls_subset (v : PartialView) :
    v.disclosure.digests.treeCalls v.top ⊆ v.disclosure.calls := by
  rw [v.top_eq, v.roots_eq]
  exact fun _ hcall => List.mem_append_right _ hcall

end PartialView

/-! ## The left edge -/

/-- A path that turns left all the way from the id of a view to the first input, or to the slot of
the inputs if there are none. -/
structure Participant.LeftEdge (p : Participant) (v : PartialView) (x : Hash)
    (path : List Merkle.PathStep) : Prop where
  sides : ∀ step ∈ path, step.side = .right
  root_eq : Merkle.rootFrom v.disclosure.digests.nodeHash x path = v.root
  hashed : ∀ pair ∈ Merkle.hashedFrom v.disclosure.digests.nodeHash x path,
    v.disclosure.digests.nodeCall pair ∈ v.disclosure.calls
  ends : x = Hash.sentinel ∧ path.length = treeHeight v.top.length ∨
    (∃ call ∈ v.disclosure.calls, call.digest = v.disclosure.digests.leaf ∧ x = call.result) ∧
      path.length = treeHeight p.padding.inputs.size.toNat + treeHeight v.top.length

namespace Participant.Verified

variable {p : Participant} {v : PartialView}

/-- Inputs that are not empty have their padded size. -/
theorem length_inputs (h : p.Verified v) {components : List Bytes}
    (hg : v.disclosure.components.get? Role.inputs.ordinal = some components)
    (hne : components ≠ []) : components.length = p.padding.inputs.size.toNat := by
  have hcount : v.disclosure.count .inputs = components.length := by
    rw [Disclosure.count, hg]
    rfl
  have hpos := List.length_pos_iff.mpr hne
  rcases h.sizes.inputs with hzero | htarget
  · omega
  · omega

theorem exists_leftEdge (h : p.Verified v) : ∃ x path, p.LeftEdge v x path := by
  have hwell := v.wellFormed
  obtain ⟨components, hg⟩ :=
    GroupMap.contains_iff.mp (h.mandatory .inputs (by decide))
  obtain ⟨nonces, hn, hlen⟩ := Disclosure.exists_nonces hwell hg
  have hslot := v.getElem?_top_role .inputs
  rw [Disclosure.impliedRoot_of_disclosed hwell hg hn] at hslot
  let high := Merkle.pathAt v.disclosure.digests.nodeHash (treeHeight v.top.length) v.top 0
  have hroot := (Merkle.rootFrom_pathAt_self _ hslot (le_two_pow_treeHeight _)).trans v.root_eq.symm
  have hhashed := fun pair hpair => nodeCall_mem_of_treeCalls_subset v.topCalls_subset pair
    (Merkle.hashedFrom_pathAt v.disclosure.digests.nodeHash hslot hpair)
  cases components with
  | nil =>
    obtain rfl : nonces = [] := List.eq_nil_of_length_eq_zero hlen
    exact ⟨Hash.sentinel, high, fun step hstep => Merkle.side_of_mem_pathAt_zero _ hstep, hroot,
      hhashed, .inl ⟨rfl, Merkle.length_pathAt _ _ _ _⟩⟩
  | cons component rest =>
    obtain ⟨nonce, others, rfl⟩ := List.exists_cons_of_length_eq_add_one hlen
    -- below the slot of the inputs the edge goes on to the leaf of the first input
    let leaves := v.disclosure.digests.leafHashes (nonce :: others) (component :: rest)
    let low := Merkle.pathAt v.disclosure.digests.nodeHash (treeHeight leaves.length) leaves 0
    let call := v.disclosure.digests.leafCall nonce component
    have hleaf : leaves[0]? = some call.result := rfl
    have hlow := Merkle.rootFrom_pathAt_self v.disclosure.digests.nodeHash hleaf
      (le_two_pow_treeHeight _)
    have hlength : leaves.length = p.padding.inputs.size.toNat := by
      rw [← h.length_inputs hg (List.cons_ne_nil _ _)]
      simp only [leaves, DigestPair.leafHashes, List.length_zipWith, hlen, Nat.min_self]
    obtain ⟨hcalls, htree⟩ := List.append_subset.mp (Disclosure.groupCalls_subset hg hn)
    refine ⟨call.result, low ++ high, fun step hstep => ?_, ?_, fun pair hpair => ?_,
      .inr ⟨⟨call, hcalls List.mem_cons_self, rfl, rfl⟩, ?_⟩⟩
    · rcases List.mem_append.mp hstep with hmem | hmem
      · exact Merkle.side_of_mem_pathAt_zero _ hmem
      · exact Merkle.side_of_mem_pathAt_zero _ hmem
    · rw [Merkle.rootFrom_append, hlow]
      exact hroot
    · rw [Merkle.hashedFrom_append, hlow] at hpair
      rcases List.mem_append.mp hpair with hmem | hmem
      · exact nodeCall_mem_of_treeCalls_subset htree pair (Merkle.hashedFrom_pathAt _ hleaf hmem)
      · exact hhashed pair hmem
    · rw [List.length_append, Merkle.length_pathAt, Merkle.length_pathAt, hlength]

end Participant.Verified

/-! ## Two views with one root -/

/-- Two verified views with one root, and calls among which are all those made for them. -/
structure Participant.Paired (p : Participant) (calls : List HashCall) (v₁ v₂ : PartialView) :
    Prop where
  free : CollisionFree calls
  avoids : AvoidsSentinel calls
  verified₁ : p.Verified v₁
  verified₂ : p.Verified v₂
  subset₁ : v₁.disclosure.calls ⊆ calls
  subset₂ : v₂.disclosure.calls ⊆ calls
  root_eq : v₁.root = v₂.root

namespace Participant.Paired

variable {p : Participant} {calls : List HashCall} {v₁ v₂ : PartialView}

theorem symm (h : p.Paired calls v₁ v₂) : p.Paired calls v₂ v₁ :=
  ⟨h.free, h.avoids, h.verified₂, h.verified₁, h.subset₂, h.subset₁, h.root_eq.symm⟩

theorem top_subset (h : p.Paired calls v₁ v₂) :
    v₁.disclosure.digests.treeCalls v₁.top ⊆ calls :=
  List.Subset.trans v₁.topCalls_subset h.subset₁

theorem merkleRoot_top_eq (h : p.Paired calls v₁ v₂) :
    v₁.disclosure.digests.merkleRoot v₁.top = v₂.disclosure.digests.merkleRoot v₂.top := by
  rw [← v₁.root_eq, ← v₂.root_eq, h.root_eq]

theorem node_eq (h : p.Paired calls v₁ v₂) :
    v₁.disclosure.digests.node = v₂.disclosure.digests.node := by
  have htwo (v : PartialView) : 2 ≤ v.top.length := by
    have := v.roleCount_le_length_top
    simp only [Role.count] at this
    omega
  exact h.free.node_eq_of_merkleRoot_eq (htwo v₁) (htwo v₂) h.top_subset h.symm.top_subset
    h.merkleRoot_top_eq

/-- The trees of both top-level lists have one height. -/
theorem treeHeight_top_eq (h : p.Paired calls v₁ v₂) :
    treeHeight v₁.top.length = treeHeight v₂.top.length := by
  obtain ⟨x, path₁, hright₁, hfold₁, hhashed₁, hend₁⟩ := h.verified₁.exists_leftEdge
  obtain ⟨y, path₂, hright₂, hfold₂, hhashed₂, hend₂⟩ := h.verified₂.exists_leftEdge
  have hhash := DigestPair.nodeHash_congr h.node_eq
  have hcall := DigestPair.nodeCall_congr h.node_eq
  rw [hhash] at hfold₂ hhashed₂
  rw [hcall] at hhashed₂
  -- an edge ends in the sentinel or in a leaf, and neither is an inner node
  have hend_not_parent {v : PartialView} (hv : p.Verified v) (hsub : v.disclosure.calls ⊆ calls)
      {z : Hash} (hz : z = Hash.sentinel ∨ ∃ call ∈ v.disclosure.calls,
        call.digest = v.disclosure.digests.leaf ∧ z = call.result) :
      ∀ pair, v.disclosure.digests.nodeCall pair ∈ calls →
        z ≠ Merkle.parent v.disclosure.digests.nodeHash pair := by
    intro pair hpair
    rcases hz with rfl | ⟨call, hmem, hdigest, rfl⟩
    · exact (h.avoids _ hpair).symm
    · exact h.free.leaf_ne_parent hv.separated (hsub hmem) hdigest hpair
  have hx := hend_not_parent h.verified₁ h.subset₁ (hend₁.imp And.left And.left)
  have hy := hend_not_parent h.verified₂ h.subset₂ (hend₂.imp And.left And.left)
  rw [hhash, hcall] at hy
  obtain ⟨rfl, rfl⟩ := Merkle.eq_of_rootFrom_eq_of_right (h.free.on_nodes _)
    (fun pair hpair => h.subset₁ (hhashed₁ pair hpair))
    (fun pair hpair => h.subset₂ (hhashed₂ pair hpair))
    hright₁ hright₂ hx hy (hfold₁.trans (h.root_eq.trans hfold₂.symm))
  -- the edges are one path, so both end in the sentinel or both in a leaf, below which the padding
  -- fixes the number of levels
  rcases hend₁ with ⟨hs₁, hlen₁⟩ | ⟨⟨call₁, hmem₁, -, hc₁⟩, hlen₁⟩
  · rcases hend₂ with ⟨-, hlen₂⟩ | ⟨⟨call₂, hmem₂, -, hc₂⟩, -⟩
    · omega
    · exact absurd (hc₂.symm.trans hs₁) (h.avoids _ (h.subset₂ hmem₂))
  · rcases hend₂ with ⟨hs₂, -⟩ | ⟨-, hlen₂⟩
    · exact absurd (hc₁.symm.trans hs₂) (h.avoids _ (h.subset₁ hmem₁))
    · omega

/-- Both disclosures imply the same root for every group. -/
theorem impliedRoot_eq (h : p.Paired calls v₁ v₂) (g : UInt32) :
    v₁.disclosure.impliedRoot g = v₂.disclosure.impliedRoot g := by
  rw [← v₁.getD_top, ← v₂.getD_top]
  exact getD_eq_of_merkleRoot_eq h.free h.avoids h.node_eq h.treeHeight_top_eq h.top_subset
    h.symm.top_subset h.merkleRoot_top_eq _

/-- The outputs have the same leaves: their number is fixed by the padding. -/
theorem outputLeaves_eq (h : p.Paired calls v₁ v₂)
    (hleaf₁ : Hash.sentinel ∉ v₁.disclosure.outputLeaves)
    (hleaf₂ : Hash.sentinel ∉ v₂.disclosure.outputLeaves) :
    v₁.disclosure.outputLeaves = v₂.disclosure.outputLeaves := by
  have hsub₁ := List.Subset.trans v₁.disclosure.outputCalls_subset h.subset₁
  have hsub₂ := List.Subset.trans v₂.disclosure.outputCalls_subset h.subset₂
  have hroot := h.impliedRoot_eq Role.outputs.ordinal
  rw [Disclosure.impliedRoot_outputs, Disclosure.impliedRoot_outputs] at hroot
  have hempty : v₁.disclosure.outputLeaves = [] ↔ v₂.disclosure.outputLeaves = [] := by
    rw [← h.avoids.merkleRoot_eq_sentinel_iff hsub₁ hleaf₁,
      ← h.avoids.merkleRoot_eq_sentinel_iff hsub₂ hleaf₂, hroot]
  have hlen : v₁.disclosure.outputLeaves.length = v₂.disclosure.outputLeaves.length := by
    rw [← List.length_eq_zero_iff, ← List.length_eq_zero_iff] at hempty
    have hsize₁ := h.verified₁.sizes.outputs
    have hsize₂ := h.verified₂.sizes.outputs
    omega
  exact eq_of_getD_eq hleaf₁ hleaf₂ (getD_eq_of_merkleRoot_eq h.free h.avoids h.node_eq
    (congrArg treeHeight hlen) hsub₁ hsub₂ hroot)

/-- A group that both disclose has the same components and the same nonces. -/
theorem disclosed_eq (h : p.Paired calls v₁ v₂) {g : UInt32} {components₁ components₂ : List Bytes}
    {nonces₁ nonces₂ : List Hash}
    (hg₁ : v₁.disclosure.components.get? g = some components₁)
    (hg₂ : v₂.disclosure.components.get? g = some components₂)
    (hn₁ : v₁.disclosure.nonces.get? g = some nonces₁)
    (hn₂ : v₂.disclosure.nonces.get? g = some nonces₂) :
    nonces₁ = nonces₂ ∧ components₁ = components₂ := by
  have hroot := h.impliedRoot_eq g
  rw [Disclosure.impliedRoot_of_disclosed v₁.wellFormed hg₁ hn₁,
    Disclosure.impliedRoot_of_disclosed v₂.wellFormed hg₂ hn₂] at hroot
  have hcalls := leafCalls_eq_of_merkleRoot_eq h.free h.avoids h.node_eq h.verified₁.separated
    h.verified₂.separated (List.Subset.trans (Disclosure.groupCalls_subset hg₁ hn₁) h.subset₁)
    (List.Subset.trans (Disclosure.groupCalls_subset hg₂ hn₂) h.subset₂) hroot
  exact DigestPair.leafCalls_inj (v₁.wellFormed.same_length g _ _ hg₁ hn₁).symm
    (v₂.wellFormed.same_length g _ _ hg₂ hn₂).symm hcalls

end Participant.Paired

namespace Participant

/-- Disclosures that a participant accepts under one id show the same transaction: its known groups
have the same roots, its outputs the same leaves, and what both show of it is the same. -/
theorem accepted_disclosures_agree {p : Participant} {d₁ d₂ : Disclosure} {v₁ v₂ : PartialView}
    (h₁ : p.verifyPartial d₁ = .ok v₁) (h₂ : p.verifyPartial d₂ = .ok v₂) (hid : d₁.id = d₂.id)
    (hfree : CollisionFree (d₁.calls ++ d₂.calls)) (havoid : AvoidsSentinel (d₁.calls ++ d₂.calls))
    (hleaf₁ : Hash.sentinel ∉ d₁.outputLeaves) (hleaf₂ : Hash.sentinel ∉ d₂.outputLeaves) :
    (∀ role : Role, ∃ root, v₁.top[role.ordinal.toNat]? = some root ∧
      v₂.top[role.ordinal.toNat]? = some root) ∧
    d₁.outputLeaves = d₂.outputLeaves ∧
    (∀ g, d₁.components.contains g = true → d₂.components.contains g = true →
      d₁.components.get? g = d₂.components.get? g ∧ d₁.nonces.get? g = d₂.nonces.get? g) ∧
    ∀ role ∈ Role.mandatory, ∃ components nonces,
      d₁.components.get? role.ordinal = some components ∧
      d₂.components.get? role.ordinal = some components ∧
      d₁.nonces.get? role.ordinal = some nonces ∧ d₂.nonces.get? role.ordinal = some nonces := by
  obtain ⟨rfl, hv₁⟩ := verifyPartial_eq_ok_iff.mp h₁
  obtain ⟨rfl, hv₂⟩ := verifyPartial_eq_ok_iff.mp h₂
  have hpair : p.Paired (v₁.disclosure.calls ++ v₂.disclosure.calls) v₁ v₂ :=
    ⟨hfree, havoid, hv₁, hv₂, List.subset_append_left _ _, List.subset_append_right _ _,
      hv₁.root_eq.trans (hid.trans hv₂.root_eq.symm)⟩
  have hshown {g : UInt32} (hg₁ : v₁.disclosure.components.contains g = true)
      (hg₂ : v₂.disclosure.components.contains g = true) : ∃ components nonces,
      v₁.disclosure.components.get? g = some components ∧
      v₂.disclosure.components.get? g = some components ∧
      v₁.disclosure.nonces.get? g = some nonces ∧ v₂.disclosure.nonces.get? g = some nonces := by
    obtain ⟨components₁, hg₁⟩ := GroupMap.contains_iff.mp hg₁
    obtain ⟨components₂, hg₂⟩ := GroupMap.contains_iff.mp hg₂
    obtain ⟨nonces₁, hn₁, -⟩ := Disclosure.exists_nonces v₁.wellFormed hg₁
    obtain ⟨nonces₂, hn₂, -⟩ := Disclosure.exists_nonces v₂.wellFormed hg₂
    obtain ⟨rfl, rfl⟩ := hpair.disclosed_eq hg₁ hg₂ hn₁ hn₂
    exact ⟨components₁, nonces₁, hg₁, hg₂, hn₁, hn₂⟩
  refine ⟨fun role => ?_, hpair.outputLeaves_eq hleaf₁ hleaf₂, fun g hg₁ hg₂ => ?_,
    fun role hrole => hshown (hv₁.mandatory role hrole) (hv₂.mandatory role hrole)⟩
  · refine ⟨_, v₁.getElem?_top_role role, ?_⟩
    rw [v₂.getElem?_top_role, hpair.impliedRoot_eq]
  · obtain ⟨components, nonces, hc₁, hc₂, hn₁, hn₂⟩ := hshown hg₁ hg₂
    exact ⟨hc₁.trans hc₂.symm, hn₁.trans hn₂.symm⟩

/-! ## A notary shown and hidden -/

/-- A disclosure of the mandatory groups, all without components, and of the notary in some form. -/
def disclosureOfNotary (components : List (UInt32 × List Bytes))
    (nonces : List (UInt32 × List Hash)) (hiddenRoots : List (UInt32 × Hash)) : Disclosure where
  digests := ⟨.sha256, .blake3⟩
  components := .ofList (Role.mandatory.map (fun role => (role.ordinal, [])) ++ components)
  nonces := .ofList (Role.mandatory.map (fun role => (role.ordinal, [])) ++ nonces)
  hiddenRoots := .ofList hiddenRoots
  outputLeaves := []
  topRoots := []
  id := Hash.zero

def notaryShown : Disclosure :=
  disclosureOfNotary [(Role.notary.ordinal, [[7]])] [(Role.notary.ordinal, [Hash.fill 9])] []

def notaryRoot : Hash :=
  notaryShown.digests.merkleRoot (notaryShown.digests.leafHashes [Hash.fill 9] [[7]])

def notaryHidden : Disclosure := disclosureOfNotary [] [] [(Role.notary.ordinal, notaryRoot)]

/-- Everything that is hashed for the notary, shown or hidden. -/
def notaryCalls : List HashCall :=
  notaryShown.digests.groupCalls [Hash.fill 9] [[7]] ++ notaryShown.digests.treeCalls
    (List.replicate 4 .sentinel ++ notaryRoot :: List.replicate 4 .sentinel)

/-- Whether the notary is shown or hidden, a verifier learns the same of the rest. -/
theorem notary_shown_or_hidden :
    ∃ v₁ v₂, standard.verifyPartial notaryShown.issued = .ok v₁ ∧
      standard.verifyPartial notaryHidden.issued = .ok v₂ ∧
      notaryShown.issued.id = notaryHidden.issued.id ∧
      CollisionFree (notaryShown.issued.calls ++ notaryHidden.issued.calls) ∧
      AvoidsSentinel (notaryShown.issued.calls ++ notaryHidden.issued.calls) ∧
      ∀ role : Role, ∃ root, v₁.top[role.ordinal.toNat]? = some root ∧
        v₂.top[role.ordinal.toNat]? = some root := by
  have hshown : standard.Verifiable notaryShown.issued :=
    verifiable_issued (Disclosure.fault?_eq_none_iff.mp (by decide)) (by decide) (by decide)
      ⟨.inl rfl, .inl rfl, .inl rfl⟩
  have hhidden : standard.Verifiable notaryHidden.issued :=
    verifiable_issued (Disclosure.fault?_eq_none_iff.mp (by decide)) (by decide) (by decide)
      ⟨.inl rfl, .inl rfl, .inl rfl⟩
  obtain ⟨v₁, h₁⟩ := exists_verifyPartial_iff.mpr hshown
  obtain ⟨v₂, h₂⟩ := exists_verifyPartial_iff.mpr hhidden
  have hid : notaryShown.issued.id = notaryHidden.issued.id := rfl
  have hshown : notaryShown.issued.calls = notaryCalls := rfl
  have hhidden : notaryHidden.issued.calls ⊆ notaryCalls := List.subset_append_right _ _
  have hsub : notaryShown.issued.calls ++ notaryHidden.issued.calls ⊆ notaryCalls :=
    List.append_subset.mpr ⟨List.Subset.refl _, hhidden⟩
  obtain ⟨hfree, havoid⟩ : CollisionFree notaryCalls ∧ AvoidsSentinel notaryCalls := by
    decide +kernel
  have hfree := hfree.of_subset hsub
  have havoid := havoid.of_subset hsub
  have hagree := accepted_disclosures_agree h₁ h₂ hid hfree havoid List.not_mem_nil List.not_mem_nil
  exact ⟨v₁, v₂, h₁, h₂, hid, hfree, havoid, hagree.1⟩

end Participant

end VeiledLedger
